import RowForest.Read.Backend
import RowForest.Proofs.Store.Lookup

namespace RowForest

namespace ReadM

variable {α β : Type} {st st' : ReadState}

theorem run_ofExcept (r : Except Error α) : (ofExcept r).run.run st = (r, st) := rfl

theorem run_pure (a : α) : (pure a : ReadM α).run.run st = (.ok a, st) := rfl

theorem run_bind_ok {x : ReadM α} {f : α → ReadM β} {a : α} (h : x.run.run st = (.ok a, st')) :
    (x >>= f).run.run st = (f a).run.run st' := by
  simp only [ExceptT.run_bind, StateT.run_bind, h]
  rfl

theorem run_bind_error {x : ReadM α} {f : α → ReadM β} {e : Error}
    (h : x.run.run st = (.error e, st')) : (x >>= f).run.run st = (.error e, st') := by
  simp only [ExceptT.run_bind, StateT.run_bind, h]
  rfl

theorem run_ofExcept_bind_ok {r : Except Error α} {f : α → ReadM β} {a : α} (h : r = .ok a) :
    (ofExcept r >>= f).run.run st = (f a).run.run st :=
  run_bind_ok (h ▸ run_ofExcept r)

theorem run_ofExcept_bind_error {r : Except Error α} {f : α → ReadM β} {e : Error} (h : r = .error e) :
    (ofExcept r >>= f).run.run st = (.error e, st) :=
  run_bind_error (h ▸ run_ofExcept r)

theorem run_foldlM {f : β → α → ReadM β} {g : β → α → β} {P : β → Prop} {as : List α} {b : β}
    (hstep : ∀ a ∈ as, ∀ b, P b → (f b a).run.run st = (.ok (g b a), st) ∧ P (g b a)) (hb : P b) :
    (as.foldlM f b).run.run st = (.ok (as.foldl g b), st) ∧ P (as.foldl g b) := by
  induction as generalizing b with
  | nil => exact ⟨rfl, hb⟩
  | cons a as ih =>
      obtain ⟨hrun, hkeep⟩ := hstep a List.mem_cons_self b hb
      rw [List.foldlM_cons, List.foldl_cons, run_bind_ok hrun]
      exact ih (fun a ha => hstep a (List.mem_cons_of_mem _ ha)) hkeep

theorem run_mapM {f : α → ReadM β} {g : α → β} {as : List α}
    (hstep : ∀ a ∈ as, (f a).run.run st = (.ok (g a), st)) :
    (as.mapM f).run.run st = (.ok (as.map g), st) := by
  induction as with
  | nil => rfl
  | cons a as ih =>
      have hrest := ih fun a ha => hstep a (List.mem_cons_of_mem _ ha)
      rw [List.mapM_cons, run_bind_ok (hstep a List.mem_cons_self), run_bind_ok hrest, List.map_cons]
      rfl

end ReadM

theorem run_checkCancelled {fault : BackendFault} {st : ReadState} (h : st.cancelled = false) :
    (checkCancelled fault).run.run st = (.ok (), st) := by
  have hget : (get : ReadM ReadState).run.run st = (.ok st, st) := rfl
  rw [checkCancelled, ReadM.run_bind_ok hget, h]
  rfl

theorem run_checkCancelled_error {fault : BackendFault} {st : ReadState} (h : st.cancelled = true) :
    (checkCancelled fault).run.run st = (.error (.backend fault), st) := by
  have hget : (get : ReadM ReadState).run.run st = (.ok st, st) := rfl
  rw [checkCancelled, ReadM.run_bind_ok hget, h]
  rfl

variable {st : ReadState}

theorem RowStore.run_backend_read (rs : RowStore) (h : st.cancelled = false) (table : String) (keys : KeySet)
    (columns : List String) :
    (rs.backend.read table keys columns).run.run st = (rs.read table keys columns, st) :=
  ReadM.run_bind_ok (run_checkCancelled h)

theorem RowStore.run_backend_read_error (rs : RowStore) (h : st.cancelled = true) (table : String)
    (keys : KeySet) (columns : List String) :
    (rs.backend.read table keys columns).run.run st = (.error (.backend .cancelled), st) :=
  ReadM.run_bind_error (run_checkCancelled_error h)

theorem RowStore.run_backend_readRow (rs : RowStore) (h : st.cancelled = false) (table : String) (k : Key)
    (columns : List String) : (rs.backend.readRow table k columns).run.run st =
      ((rs.read table (.single k) columns).map List.head?, st) := by
  refine (ReadM.run_bind_ok (run_checkCancelled h)).trans ?_
  cases rs.read table (.single k) columns with
  | error e => rfl
  | ok rows => rfl

theorem RowStore.run_backend_readRow_error (rs : RowStore) (h : st.cancelled = true) (table : String)
    (k : Key) (columns : List String) :
    (rs.backend.readRow table k columns).run.run st = (.error (.backend .cancelled), st) :=
  ReadM.run_bind_error (run_checkCancelled_error h)

theorem RowStore.run_backend_query (rs : RowStore) (h : st.cancelled = false) (statement : Sql.Statement) :
    (rs.backend.query statement).run.run st = (rs.query statement, st) :=
  ReadM.run_bind_ok (run_checkCancelled h)

theorem RowStore.run_backend_query_error (rs : RowStore) (h : st.cancelled = true)
    (statement : Sql.Statement) :
    (rs.backend.query statement).run.run st = (.error (.backend .cancelled), st) :=
  ReadM.run_bind_error (run_checkCancelled_error h)

end RowForest
