import RowForest.Read.Transaction
import RowForest.Proofs.Plan.RowTree
import RowForest.Proofs.Read.Backend

namespace Except

variable {ε ζ α β : Type} {P : ε → Prop}

/-- Whether a computation can only fail with an error of some kind. -/
def FailsWith (P : ε → Prop) (x : Except ε α) : Prop := ∀ e, x = .error e → P e

theorem failsWith_ok (a : α) : FailsWith P (.ok a : Except ε α) := nofun

theorem failsWith_error {e : ε} (h : P e) : FailsWith P (.error e : Except ε α) := by
  rintro _ ⟨⟩
  exact h

theorem failsWith_bind {x : Except ε α} {f : α → Except ε β} (hx : FailsWith P x)
    (hf : ∀ a, FailsWith P (f a)) : FailsWith P (x >>= f) := by
  cases x with
  | error e => exact failsWith_error (hx e rfl)
  | ok a => exact hf a

theorem failsWith_mapError {x : Except ζ α} {f : ζ → ε} (hf : ∀ z, P (f z)) :
    FailsWith P (x.mapError f) := by
  cases x with
  | error z => exact failsWith_error (hf z)
  | ok a => exact failsWith_ok a

theorem failsWith_mapM {f : α → Except ε β} (as : List α) (hf : ∀ a, FailsWith P (f a)) :
    FailsWith P (as.mapM f) := by
  induction as with
  | nil => exact failsWith_ok []
  | cons a as ih =>
      rw [List.mapM_cons]
      exact failsWith_bind (hf a) fun b => failsWith_bind ih fun bs => failsWith_ok (b :: bs)

theorem failsWith_foldlM {f : β → α → Except ε β} (as : List α) (b : β)
    (hf : ∀ b a, FailsWith P (f b a)) : FailsWith P (as.foldlM f b) := by
  induction as generalizing b with
  | nil => exact failsWith_ok b
  | cons a as ih =>
      rw [List.foldlM_cons]
      exact failsWith_bind (hf b a) ih

end Except

namespace RowForest

open Except

def Error.IsFault : Error → Prop
  | notFound _ _ => False
  | _ => True

namespace Eval

variable {source : Source}

theorem failsWith_evalIn (sc : Scope) (e : Sql.Expr) : FailsWith Error.IsFault (evalIn sc e) :=
  failsWith_mapError fun _ => trivial

theorem failsWith_optionalCount (sc : Scope) (keyword : String) (e : Option Sql.Expr) :
    FailsWith Error.IsFault (optionalCount sc keyword e) := by
  cases e with
  | none => exact failsWith_ok none
  | some e =>
      refine failsWith_bind (failsWith_bind (failsWith_evalIn sc e) fun v => ?_) fun n => failsWith_ok _
      cases v with
      | int64 n =>
          dsimp only
          split
          · exact failsWith_ok _
          · exact failsWith_error trivial
      | _ => exact failsWith_error trivial

theorem failsWith_keeps (sc : Scope) (table : String) (filter : Option Sql.Expr) (r : Row) :
    FailsWith Error.IsFault (keeps sc table filter r) := by
  cases filter with
  | none => exact failsWith_ok true
  | some e =>
      refine failsWith_bind (failsWith_evalIn _ e) fun v => ?_
      cases v <;> exact failsWith_ok _

theorem failsWith_keepWhere (sc : Scope) (table : String) (filter : Option Sql.Expr) (rows : List Row) :
    FailsWith Error.IsFault (keepWhere sc table filter rows) := by
  induction rows with
  | nil => exact failsWith_ok []
  | cons r rows ih =>
      exact failsWith_bind (failsWith_keeps sc table filter r) fun _ =>
        failsWith_bind ih fun _ => failsWith_ok _

theorem failsWith_sortKeys (sc : Scope) (order : List Sql.Order) :
    FailsWith Error.IsFault (sortKeys sc order) := by
  induction order with
  | nil => exact failsWith_ok []
  | cons o os ih =>
      exact failsWith_bind (failsWith_evalIn sc o.key) fun _ => failsWith_bind ih fun _ => failsWith_ok _

theorem failsWith_withKeys (sc : Scope) (table : String) (order : List Sql.Order) (rows : List Row) :
    FailsWith Error.IsFault (withKeys sc table order rows) := by
  induction rows with
  | nil => exact failsWith_ok []
  | cons r rows ih =>
      exact failsWith_bind (failsWith_sortKeys _ order) fun _ => failsWith_bind ih fun _ => failsWith_ok _

theorem failsWith_sortRows (sc : Scope) (table : String) (order : List Sql.Order) (rows : List Row) :
    FailsWith Error.IsFault (sortRows sc table order rows) := by
  unfold sortRows
  split
  · exact failsWith_ok rows
  · exact failsWith_bind (failsWith_withKeys sc table order rows) fun _ => failsWith_ok _

theorem failsWith_select (hsource : ∀ table, FailsWith Error.IsFault (source table)) (sc : Scope)
    (table : String) (filter : Option Sql.Expr) (order : List Sql.Order) (limit offset : Option Sql.Expr) :
    FailsWith Error.IsFault (select source sc table filter order limit offset) :=
  failsWith_bind (failsWith_optionalCount sc _ limit) fun _ =>
    failsWith_bind (failsWith_optionalCount sc _ offset) fun _ =>
      failsWith_bind (hsource table) fun rows =>
        failsWith_bind (failsWith_keepWhere sc table filter rows) fun kept =>
          failsWith_bind (failsWith_sortRows sc table order kept) fun _ => failsWith_ok _

mutual

theorem failsWith_run (hsource : ∀ table, FailsWith Error.IsFault (source table)) :
    ∀ (q : Sql.Query) (sc : Scope), FailsWith Error.IsFault (run source sc q)
  | ⟨_, items, table, filter, order, limit, offset⟩, sc => by
    rw [run]
    exact failsWith_bind (failsWith_select hsource sc table filter order limit offset) fun rows =>
      failsWith_mapM rows fun r => failsWith_project hsource items (sc.push table r) r .empty

theorem failsWith_project (hsource : ∀ table, FailsWith Error.IsFault (source table)) :
    ∀ (items : List Sql.Item) (sc : Scope) (r out : Row),
      FailsWith Error.IsFault (project source sc r items out)
  | [], sc, r, out => failsWith_ok out
  | i :: is, sc, r, out => by
    rw [project]
    exact failsWith_bind (failsWith_itemValue hsource i sc r) fun v => failsWith_project hsource is sc r _

theorem failsWith_itemValue (hsource : ∀ table, FailsWith Error.IsFault (source table)) :
    ∀ (i : Sql.Item) (sc : Scope) (r : Row), FailsWith Error.IsFault (itemValue source sc r i)
  | .column name, sc, r => failsWith_ok (r.get name)
  | .array q _, sc, r => by
    rw [itemValue]
    exact failsWith_bind (failsWith_run hsource q sc) fun _ => failsWith_ok _

end

end Eval

theorem Database.failsWith_getTable (db : Database) (name : String) :
    FailsWith Error.IsFault (db.getTable name) := by
  unfold getTable
  split
  · exact failsWith_ok _
  · exact failsWith_error trivial

theorem Database.failsWith_plan (db : Database) (root : String) (requested : TableNames) :
    FailsWith Error.IsFault (db.plan root requested) := by
  refine failsWith_bind (db.failsWith_getTable root) fun t => ?_
  dsimp only
  split
  · exact failsWith_error trivial
  · exact failsWith_ok _

theorem ReadSettings.failsWith_statement (s : ReadSettings) (plan : Level) (q : Listing) (nested : Bool) :
    FailsWith Error.IsFault (s.statement plan q nested) := by
  refine failsWith_bind ?_ fun ps => failsWith_ok _
  unfold statementParams
  split
  · exact failsWith_error trivial
  · exact failsWith_ok _

namespace Staging

theorem failsWith_storedKey (t : Table) (k : Key) : FailsWith Error.IsFault (t.storedKey k) :=
  failsWith_mapError fun _ => trivial

theorem failsWith_lookupKey (s : Staging) (t : Table) (k : Key) :
    FailsWith Error.IsFault (s.lookupKey t k) := by
  unfold lookupKey
  split
  · exact failsWith_bind (failsWith_storedKey t k) fun _ => failsWith_ok _
  · exact failsWith_error trivial

theorem failsWith_lookupKeys (s : Staging) (t : Table) (ks : List Key) :
    FailsWith Error.IsFault (s.lookupKeys t ks) := by
  induction ks with
  | nil => exact failsWith_ok _
  | cons k ks ih =>
      exact failsWith_bind (s.failsWith_lookupKey t k) fun _ => failsWith_bind ih fun _ => failsWith_ok _

mutual

theorem failsWith_lookup (s : Staging) (t : Table) : ∀ keys : KeySet,
    FailsWith Error.IsFault (s.lookup t keys)
  | .single k => s.failsWith_lookupKey t k
  | .list ks => s.failsWith_lookupKeys t ks
  | .under k => failsWith_bind (failsWith_storedKey t k) fun _ => failsWith_ok _
  | .union sets => s.failsWith_lookupAll t sets

theorem failsWith_lookupAll (s : Staging) (t : Table) : ∀ sets : List KeySet,
    FailsWith Error.IsFault (s.lookupAll t sets)
  | [] => failsWith_ok _
  | set :: sets => failsWith_bind (s.failsWith_lookup t set) fun _ =>
    failsWith_bind (s.failsWith_lookupAll t sets) fun _ => failsWith_ok _

end

end Staging

namespace RowStore

variable (rs : RowStore)

theorem failsWith_rowsIn (t : Table) (keys : KeySet) (columns : List String) :
    FailsWith Error.IsFault (rs.rowsIn t keys columns) :=
  failsWith_bind (Staging.failsWith_lookup _ t keys) fun _ => failsWith_mapM _ fun _ =>
    failsWith_bind (failsWith_mapError fun _ => trivial) fun _ => failsWith_ok _

theorem failsWith_read (table : String) (keys : KeySet) (columns : List String) :
    FailsWith Error.IsFault (rs.read table keys columns) :=
  failsWith_bind (rs.db.failsWith_getTable table) fun t => rs.failsWith_rowsIn t keys columns

theorem failsWith_query (statement : Sql.Statement) : FailsWith Error.IsFault (rs.query statement) :=
  Eval.failsWith_run (fun table => failsWith_bind (rs.db.failsWith_getTable table) fun t =>
    rs.failsWith_rowsIn t .all t.columnNames) statement.query _

end RowStore

namespace RowTree

mutual

theorem failsWith_ofFields : ∀ (l : Level) (fs : List (String × Value)),
    FailsWith Error.IsFault (ofFields l fs)
  | ⟨t, depth, children⟩, fs => by
    rw [ofFields]
    refine failsWith_bind (failsWith_foldlM fs _ fun acc f => ?_) fun _ => failsWith_ok _
    split
    · split
      · exact failsWith_ok _
      · exact failsWith_error trivial
    · exact failsWith_bind (failsWith_ofChildren children t.name f.1 f.2) fun _ => failsWith_ok _

theorem failsWith_ofChildren : ∀ (ls : List Level) (table column : String) (v : Value),
    FailsWith Error.IsFault (ofChildren table column v ls)
  | [], table, column, v => failsWith_error trivial
  | l :: ls, table, column, v => by
    rw [ofChildren]
    split
    · refine failsWith_bind ?_ fun items => failsWith_mapM items fun item => ?_
      · cases v <;> first | exact failsWith_ok _ | exact failsWith_error trivial
      · cases item <;> first | exact failsWith_ofFields l _ | exact failsWith_error trivial
    · exact failsWith_ofChildren ls table column v

end

end RowTree

namespace ReadM

variable {α β : Type} {P : Error → Prop}

def FailsWith (P : Error → Prop) (x : ReadM α) : Prop :=
  ∀ st e st', x.run.run st = (.error e, st') → P e

theorem failsWith_pure (a : α) : FailsWith P (pure a : ReadM α) := nofun

theorem failsWith_ofExcept {r : Except Error α} (h : Except.FailsWith P r) : FailsWith P (ofExcept r) := by
  rintro st e st' hrun
  exact h e (Prod.mk.inj hrun).1

theorem failsWith_bind {x : ReadM α} {f : α → ReadM β} (hx : FailsWith P x)
    (hf : ∀ a, FailsWith P (f a)) : FailsWith P (x >>= f) := by
  intro st e st' hrun
  obtain ⟨⟨r, st''⟩, hr⟩ : ∃ r, x.run.run st = r := ⟨_, rfl⟩
  cases r with
  | error e' =>
      rw [run_bind_error hr] at hrun
      cases hrun
      exact hx _ _ _ hr
  | ok a =>
      rw [run_bind_ok hr] at hrun
      exact hf a _ _ _ hrun

theorem failsWith_foldlM {f : β → α → ReadM β} (as : List α) (b : β) (hf : ∀ b a, FailsWith P (f b a)) :
    FailsWith P (as.foldlM f b) := by
  induction as generalizing b with
  | nil => exact failsWith_pure b
  | cons a as ih =>
      rw [List.foldlM_cons]
      exact failsWith_bind (hf b a) ih

theorem failsWith_checkCancelled (fault : BackendFault) :
    FailsWith Error.IsFault (checkCancelled fault) := by
  intro st e st' hrun
  cases hst : st.cancelled with
  | true =>
      rw [run_checkCancelled_error hst] at hrun
      cases hrun
      trivial
  | false =>
      rw [run_checkCancelled hst] at hrun
      cases hrun

end ReadM

namespace Transaction

open ReadM

theorem failsWith_readLevelwise (rs : RowStore) (s : ReadSettings) (showDeleted : Bool) (plan : Level)
    (rows : List Row) : FailsWith Error.IsFault (Levelwise.read rs.backend s showDeleted plan rows) := by
  refine failsWith_bind (failsWith_foldlM _ _ fun f wave => ?_) fun _ => failsWith_pure _
  refine failsWith_bind (failsWith_checkCancelled _) fun _ => failsWith_foldlM _ _ fun f e => ?_
  unfold Levelwise.readLevel
  dsimp only
  split
  · exact failsWith_pure _
  · exact failsWith_bind (failsWith_checkCancelled _) fun _ => failsWith_bind
      (failsWith_bind (failsWith_checkCancelled _) fun _ => failsWith_ofExcept (rs.failsWith_read _ _ _))
      fun _ => failsWith_pure _

/-- Whatever goes wrong in a listing, it is not that a row does not exist. -/
theorem failsWith_list (rs : RowStore) (s : ReadSettings) (q : Listing) :
    FailsWith Error.IsFault (list ⟨rs.db, rs.backend, s⟩ q) := by
  refine failsWith_bind (failsWith_ofExcept (rs.db.failsWith_plan _ _)) fun plan =>
    failsWith_bind (failsWith_ofExcept (s.failsWith_statement plan q _)) fun statement =>
      failsWith_bind (failsWith_bind (failsWith_checkCancelled _) fun _ =>
        failsWith_ofExcept (rs.failsWith_query statement)) fun rows => ?_
  dsimp only
  split
  · exact failsWith_readLevelwise rs s q.showDeleted plan rows
  · exact failsWith_ofExcept (Except.failsWith_mapM rows fun r => RowTree.failsWith_ofFields plan r.fields)

end Transaction

end RowForest
