import RowForest.Proofs.Plan.Contents
import RowForest.Proofs.Plan.Statement

namespace RowForest

def Backend.answering (b : Backend) (f : String → KeySet → Except Error (List Row)) : Backend :=
  { b with read := fun table keys _ => .ofExcept (f table keys) }

structure Request where
  table : Table
  keys : KeySet

namespace Request

def call (r : Request) : Call := .read r.table.name r.keys r.table.columnNames

def answer (f : String → KeySet → Except Error (List Row)) (r : Request) : Except Error (List Row) :=
  f r.table.name r.keys

def rows (f : String → KeySet → Except Error (List Row)) (r : Request) : List Row :=
  (r.answer f).toOption.getD []

end Request

def ReadState.after (st : ReadState) (made : List Request) : ReadState :=
  { st with calls := st.calls ++ made.map Request.call }

theorem ReadState.after_nil (st : ReadState) : st.after [] = st := by
  simp [after]

theorem ReadState.after_append (st : ReadState) (made more : List Request) :
    st.after (made ++ more) = (st.after made).after more := by
  simp [after]

/-- Whether a reader that is not cancelled makes these reads one after another and then returns this
value, unless one of them fails: then it makes none after the first that does, and ends in its error. -/
structure Issues {α : Type} (f : String → KeySet → Except Error (List Row)) (x : ReadM α)
    (reads : List Request) (a : α) : Prop where
  returns : ∀ st : ReadState, st.cancelled = false → (∀ r ∈ reads, ∃ rows, r.answer f = .ok rows) →
    x.run.run st = (.ok a, st.after reads)
  fails : ∀ st : ReadState, st.cancelled = false → ∀ before r after e, reads = before ++ r :: after →
    (∀ r ∈ before, ∃ rows, r.answer f = .ok rows) → r.answer f = .error e →
      x.run.run st = (.error e, st.after (before ++ [r]))

def trail {α β : Type} (reads : β → α → List Request) (next : β → α → β) : β → List α → List Request
  | _, [] => []
  | b, a :: as => reads b a ++ trail reads next (next b a) as

section

variable {α β : Type} {reads : β → α → List Request} {next : β → α → β}

theorem trail_append (b : β) (as as' : List α) : trail reads next b (as ++ as') =
    trail reads next b as ++ trail reads next (as.foldl next b) as' := by
  induction as generalizing b with
  | nil => rfl
  | cons a as ih => rw [List.cons_append, trail, ih, trail, List.append_assoc, List.foldl_cons]

theorem trail_flatten (b : β) (ass : List (List α)) :
    trail (trail reads next) (List.foldl next) b ass = trail reads next b ass.flatten := by
  induction ass generalizing b with
  | nil => rfl
  | cons as ass ih => rw [trail, ih, List.flatten_cons, trail_append]

end

namespace Issues

variable {α β : Type} {f : String → KeySet → Except Error (List Row)}

theorem of_run {x : ReadM α} {a : α}
    (h : ∀ st : ReadState, st.cancelled = false → x.run.run st = (.ok a, st)) : Issues f x [] a where
  returns st hst _ := by rw [h st hst, st.after_nil]
  fails _ _ _ _ _ _ hreads := absurd hreads (by simp)

theorem bind {x : ReadM α} {g : α → ReadM β} {reads more : List Request} {a : α} {b : β}
    (hx : Issues f x reads a) (hg : Issues f (g a) more b) : Issues f (x >>= g) (reads ++ more) b where
  returns st hst hall := by
    have hfirst := hx.returns st hst fun r hr => hall r (List.mem_append_left _ hr)
    have hrest := hg.returns (st.after reads) hst fun r hr => hall r (List.mem_append_right _ hr)
    rw [ReadM.run_bind_ok hfirst, hrest, st.after_append]
  fails st hst before r after e hreads hbefore he := by
    have hsplit : (∃ rest, before = reads ++ rest ∧ more = rest ++ r :: after) ∨
        ∃ rest, reads = before ++ r :: rest := by
      rcases List.append_eq_append_iff.1 hreads with hlate | ⟨rest, hearly, hrest⟩
      · exact .inl hlate
      · rcases List.cons_eq_append_iff.1 hrest with ⟨rfl, hmore⟩ | ⟨rest, rfl, -⟩
        · exact .inl ⟨[], by simpa using hearly.symm, hmore⟩
        · exact .inr ⟨rest, hearly⟩
    rcases hsplit with ⟨rest, rfl, hmore⟩ | ⟨rest, hearly⟩
    · have hfirst := hx.returns st hst fun r hr => hbefore r (List.mem_append_left _ hr)
      have hfail := hg.fails (st.after reads) hst rest r after e hmore
        (fun r hr => hbefore r (List.mem_append_right _ hr)) he
      rw [ReadM.run_bind_ok hfirst, hfail, ← st.after_append, List.append_assoc]
    · exact ReadM.run_bind_error (hx.fails st hst before r rest e hearly hbefore he)

theorem foldlM {step : β → α → ReadM β} {reads : β → α → List Request} {next : β → α → β}
    (h : ∀ b a, Issues f (step b a) (reads b a) (next b a)) (as : List α) (b : β) :
    Issues f (as.foldlM step b) (trail reads next b as) (as.foldl next b) := by
  induction as generalizing b with
  | nil => exact of_run fun _ _ => rfl
  | cons a as ih =>
      rw [List.foldlM_cons]
      exact (h b a).bind (ih (next b a))

theorem checkCancelled (fault : BackendFault) : Issues f (RowForest.checkCancelled fault) [] () :=
  of_run fun _ hst => run_checkCancelled hst

theorem read (b : Backend) (t : Table) (keys : KeySet) :
    Issues f ((b.answering f).recorded.read t.name keys t.columnNames) [⟨t, keys⟩]
      (Request.rows f ⟨t, keys⟩) := by
  have hrecord (st : ReadState) : ((b.answering f).recorded.read t.name keys t.columnNames).run.run st =
      (f t.name keys, st.after [⟨t, keys⟩]) := rfl
  constructor
  · intro st _ hall
    obtain ⟨rows, hrows⟩ := hall _ List.mem_cons_self
    rw [hrecord, Request.rows, hrows]
    exact congrArg (·, _) hrows
  · rintro st - (_ | ⟨d, before⟩) r after e hreads - he
    · obtain ⟨rfl, -⟩ := List.cons.inj hreads
      rw [hrecord]
      exact congrArg (·, _) he
    · simp at hreads

end Issues

namespace Levelwise

variable {f : String → KeySet → Except Error (List Row)} {b : Backend} {s : ReadSettings}
  {showDeleted : Bool} {plan : Level}

/-- What is asked of a level below the rows of its parent: without any, nothing. -/
def request? (e : Level × Level) (parents : List Row) : Option Request :=
  if parents.isEmpty then none
  else some ⟨e.1.table, .union (parents.map (fun r => .under (Key.ofRow e.2.table r)))⟩

/-- The shown rows of what a level is asked for. -/
def answered (f : String → KeySet → Except Error (List Row)) (s : ReadSettings) (showDeleted : Bool)
    (e : Level × Level) (parents : List Row) : List Row :=
  match request? e parents with
  | some r => (r.rows f).filter (s.shows showDeleted e.1.table)
  | none => []

/-- Whether these are the root's rows, and for each level what it is asked for below the rows of
its parent. -/
structure Gathers (f : String → KeySet → Except Error (List Row)) (s : ReadSettings) (showDeleted : Bool)
    (plan : Level) (rows : List Row) (held : Fetched) : Prop where
  root : held.rows plan.table.name = rows
  below : ∀ m p, (m, some p) ∈ plan.walk none →
    held.rows m.table.name = answered f s showDeleted (m, p) (held.rows p.table.name)

theorem issues_readLevel (held : Fetched) (e : Level × Level) :
    Issues f (readLevel (b.answering f).recorded s showDeleted held e.1 e.2)
      (request? e (held.rows e.2.table.name)).toList (gather (answered f s showDeleted) held e) := by
  obtain ⟨l, parent⟩ := e
  rw [readLevel, gather, answered, request?]
  dsimp only
  rw [Fetched.keys, KeySet.underAny, List.map_map, List.isEmpty_map]
  cases held.rows parent.table.name with
  | nil => exact .of_run fun _ _ => rfl
  | cons r rows =>
      rw [List.isEmpty_cons, if_neg Bool.false_ne_true, if_neg Bool.false_ne_true]
      refine (Issues.checkCancelled _).bind ((Issues.read b l.table _).bind (.of_run fun st _ => ?_))
      rw [s.filter_shows]
      rfl

theorem issues_waves (held : Fetched) :
    Issues f (plan.waves.foldlM (readWave (b.answering f).recorded s showDeleted) held)
      (trail (fun held e => (request? e (held.rows e.2.table.name)).toList)
        (gather (answered f s showDeleted)) held plan.waves.flatten)
      (plan.waves.flatten.foldl (gather (answered f s showDeleted)) held) := by
  rw [← trail_flatten, List.foldl_flatten]
  refine Issues.foldlM (fun held wave => ?_) plan.waves held
  exact (Issues.checkCancelled _).bind (Issues.foldlM issues_readLevel wave held)

/-- What is asked of each level does not depend on what is read after its parent. -/
theorem trail_eq {answer : Level × Level → List Row → List Row} {es : List (Level × Level)}
    (hes : es.Pairwise Level.After) (hne : ∀ e ∈ es, e.1.table.name ≠ e.2.table.name) (held : Fetched) :
    trail (fun held e => (request? e (held.rows e.2.table.name)).toList) (gather answer) held es =
      es.filterMap (fun e => request? e ((es.foldl (gather answer) held).rows e.2.table.name)) := by
  induction hes generalizing held with
  | nil => rfl
  | @cons e es hafter hes ih =>
      have hparent : ∀ d ∈ es, d.1.table.name ≠ e.2.table.name := fun d hd => (hafter d hd).2
      have hown : ((e :: es).foldl (gather answer) held).rows e.2.table.name = held.rows e.2.table.name := by
        rw [List.foldl_cons, rows_foldl_gather hparent, gather,
          Fetched.rows_cons_of_ne (hne e List.mem_cons_self).symm]
      rw [trail, ih (fun d hd => hne d (List.mem_cons_of_mem _ hd)), List.filterMap_cons, hown]
      cases request? e (held.rows e.2.table.name) <;> rfl

theorem hang_row (table : String) (tree parent : RowTree) : (hang table tree parent).row = parent.row := by
  cases parent with
  | node t r children => rfl

theorem settle_rows (t child : Table) (places : List (Key × Nat)) (out : List RowTree) (tree : RowTree) :
    (settle t places child out tree).map RowTree.row = out.map RowTree.row := by
  rw [settle]
  split
  · refine List.ext_getElem? fun j => ?_
    rw [List.getElem?_map, List.getElem?_map, List.getElem?_modify]
    cases out[j]? with
    | none => rfl
    | some parent => split <;> simp [hang_row]
  · rfl

theorem foldl_rows {α : Type} {step : List RowTree → α → List RowTree}
    (hstep : ∀ out a, (step out a).map RowTree.row = out.map RowTree.row) (as : List α) (out : List RowTree) :
    (as.foldl step out).map RowTree.row = out.map RowTree.row := by
  induction as generalizing out with
  | nil => rfl
  | cons a as ih => rw [List.foldl_cons, ih, hstep]

theorem attach_rows (t : Table) (rows : List Row) (children : List (Table × List RowTree)) :
    (attach t rows children).map RowTree.row = rows := by
  have hchild (out : List RowTree) (c : Table × List RowTree) :
      (c.2.foldl (settle t (places t rows) c.1) out).map RowTree.row = out.map RowTree.row :=
    foldl_rows (settle_rows t c.1 _) c.2 out
  rw [attach, foldl_rows hchild, List.map_map]
  exact List.map_id rows

theorem build_rows (f : Fetched) (l : Level) (rows : List Row) : (build f l rows).map RowTree.row = rows := by
  obtain ⟨t, depth, children⟩ := l
  exact attach_rows t rows _

/-- Whatever a backend answers, reading level by level asks it for each level, in the order of the
waves, for what is below the shown rows of the level's parent, if there are any. The first read that
fails is the last one made and gives the error. If none fails, each root row has its tree. -/
theorem read_protocol {db : Database} (hdb : db.Reachable) {root : String} {requested : TableNames}
    (hplan : db.plan root requested = .ok plan) (b : Backend)
    (f : String → KeySet → Except Error (List Row)) (s : ReadSettings) (showDeleted : Bool)
    (rows : List Row) : ∃ held trees, Gathers f s showDeleted plan rows held ∧
      trees.map RowTree.row = rows ∧
      Issues f (read (b.answering f).recorded s showDeleted plan rows)
        (plan.waves.flatMap (fun wave => wave.filterMap
          (fun e => request? e (held.rows e.2.table.name)))) trees := by
  obtain ⟨hfits, -, -⟩ := hdb.wellFormed.plan_eq_ok hplan
  obtain ⟨held, hheld⟩ : ∃ held, plan.waves.flatten.foldl (gather (answered f s showDeleted))
    [(plan.table.name, rows)] = held := ⟨_, rfl⟩
  obtain ⟨hroot, hbelow⟩ := rows_gathered hdb.wellFormed hfits hheld
  have hself : ∀ e ∈ plan.waves.flatten, e.1.table.name ≠ e.2.table.name := fun e he =>
    Level.name_ne_of_mem_walk hdb.wellFormed hfits ((Level.mem_waves hfits).1 he)
  have hrun : Issues f (plan.waves.foldlM (readWave (b.answering f).recorded s showDeleted)
    [(plan.table.name, rows)]) _ _ := issues_waves _
  rw [trail_eq (Level.waves_ordered hdb.wellFormed hfits) hself, hheld, ← List.flatMap_id,
    List.filterMap_flatMap] at hrun
  refine ⟨held, build held plan rows, ⟨hroot, hbelow⟩, build_rows held plan rows, ?_⟩
  have hbuild : Issues f (pure (build held plan rows) : ReadM (List RowTree)) [] (build held plan rows) :=
    .of_run fun _ _ => rfl
  rw [← List.append_nil (List.flatMap _ _)]
  exact hrun.bind hbuild

end Levelwise

namespace Discography

/-- Albums, a deleted one among them, and fans can be read, and nothing else. -/
def answer (name : String) (_ : KeySet) : Except Error (List Row) :=
  if name = "Album" then .ok [album 1 5, deletedAlbum, album 1 3]
  else if name = "Fan" then .ok [fan 1 7]
  else .error (.backend (.unavailable name))

def albumLevel : Level := ⟨Sample.albums, 1, [⟨tracks, 2, []⟩]⟩

def albumRead : Request := ⟨Sample.albums, .union [.under ⟨[.int64 1]⟩]⟩

def fanRead : Request := ⟨fans, .union [.under ⟨[.int64 1]⟩]⟩

def trackRead : Request :=
  ⟨tracks, .union [.under ⟨[.int64 1, .int64 5]⟩, .under ⟨[.int64 1, .int64 3]⟩]⟩

end Discography

/-- The tracks are read below the albums that are not deleted, and there are none to be had. -/
theorem Levelwise.read_protocol_sample : Discography.db.Reachable ∧
    Discography.db.plan "Singer" (.ofList ["Fan", "Track"]) = .ok Discography.plan ∧
    ∃ trees, Issues Discography.answer
        (read (Discography.store.backend.answering Discography.answer).recorded {} false Discography.plan
          [Discography.singer 1]) [Discography.albumRead, Discography.fanRead, Discography.trackRead] trees ∧
      (read (Discography.store.backend.answering Discography.answer).recorded {} false Discography.plan
        [Discography.singer 1]).run.run ⟨false, []⟩ = (.error (.backend (.unavailable "Track")),
          ⟨false, [Discography.albumRead.call, Discography.fanRead.call, Discography.trackRead.call]⟩) := by
  have hdb : Discography.db.Reachable := ⟨_, rfl⟩
  have hplan : Discography.db.plan "Singer" (.ofList ["Fan", "Track"]) = .ok Discography.plan := rfl
  obtain ⟨held, trees, hheld, -, hissues⟩ := read_protocol hdb hplan Discography.store.backend
    Discography.answer {} false [Discography.singer 1]
  have halbums : held.rows Discography.albumLevel.table.name = [Discography.album 1 5, Discography.album 1 3] := by
    rw [hheld.below Discography.albumLevel Discography.plan (List.mem_cons_of_mem _ List.mem_cons_self),
      hheld.root]
    rfl
  have hwaves : Discography.plan.waves = [
    [(Discography.albumLevel, Discography.plan), (⟨Discography.fans, 1, []⟩, Discography.plan)],
    [(⟨Discography.tracks, 2, []⟩, Discography.albumLevel)]] := rfl
  have hreads : Discography.plan.waves.flatMap (fun wave => wave.filterMap
      (fun e => request? e (held.rows e.2.table.name))) =
        [Discography.albumRead, Discography.fanRead, Discography.trackRead] := by
    simp only [hwaves, List.flatMap_cons, List.filterMap_cons, hheld.root, halbums]
    rfl
  rw [hreads] at hissues
  have hfirst : ∀ r ∈ [Discography.albumRead, Discography.fanRead],
      ∃ rows, r.answer Discography.answer = .ok rows := by
    simp only [List.forall_mem_cons]
    exact ⟨⟨_, rfl⟩, ⟨_, rfl⟩, by simp⟩
  exact ⟨hdb, hplan, trees, hissues, hissues.fails ⟨false, []⟩ rfl
    [Discography.albumRead, Discography.fanRead] Discography.trackRead [] _ rfl hfirst rfl⟩

end RowForest
