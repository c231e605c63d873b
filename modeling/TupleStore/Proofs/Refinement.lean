import TupleStore.Proofs.Attribution

/-!
# The cache is not seen

A store with its cache, its files and its log is to transactions what its `Contents` are: every page that a
transaction is given has the bytes that it has left there since it began, or else those that were committed
last. Which pages were evicted, flushed and read again does not show.

`World.Refines` says this of a world and of what can happen to it next. Every run comes to such a world.
-/

namespace TupleStore

set_option autoImplicit false

open TupleStore.Action

/-- The contents of the pages of a world. -/
def World.contents (first : PageId → Bytes) (w : World) : Contents := TupleStore.contents first w.store.trace

/-- A world is to transactions what its contents are. -/
structure World.Refines (first : PageId → Bytes) (w : World) : Prop where
  /-- A page that a transaction was given was what the transaction was to see then. -/
  seen : ∀ later past t page bytes, w.store.trace = later ++ .saw t page bytes :: past →
    bytes = (TupleStore.contents first past).view t page
  /-- So is every page whose guard is held. -/
  held : ∀ g ∈ w.guards, g.bytes w.store = (w.contents first).view g.txn g.page
  /-- A call to read a page answers with it, if it ends. -/
  read : ∀ r, .call (.read r) ∈ w.tasks → (Call.readStep r).Ends w.store
    (fun p s => ∀ bytes, p = .finished (.content bytes) →
      bytes = (TupleStore.contents first s.trace).view r.txn r.page)
    fun _ _ => True
  /-- What is written through a guard is left in its page. -/
  written : ∀ g ∈ w.guards, ∀ off data, (g.write off data).Ends w.store
    (fun _ s => TupleStore.contents first s.trace =
      match g.mode, ((w.contents first).view g.txn g.page).patch? off data with
      | .write, some bytes => (w.contents first).write g.txn g.page bytes
      | _, _ => w.contents first)
    fun _ _ => False
  /-- Only the transaction that acts leaves anything in pages, and only the end of one changes what is
  committed. -/
  apart : ∀ op : Op, op.Cached →
    (∀ u, w.actor op ≠ some u → ((w.apply op).contents first).own u = (w.contents first).own u) ∧
      (op.Ongoing → ((w.apply op).contents first).committed = (w.contents first).committed)
  /-- A transaction that has no page in use ends as it wants. Only the commit of a doomed one is refused, and
  then it is rolled back. -/
  ended : ∀ t wantsCommit, w.uses? t = false → (Action.complete t wantsCommit).Ends w.store
    (fun _ s => TupleStore.contents first s.trace = (w.contents first).complete t wantsCommit)
    fun e s => e = .deadlock t ∧ wantsCommit = true ∧ w.store.pool.isDoomed t = true ∧
      TupleStore.contents first s.trace = (w.contents first).complete t false

variable {s₀ s : Store} {w : World} {uses : List Use}

/-! ## What the invariant says -/

theorem Stands.read_answers {r : Request} (h : Stands s₀ (r.uses ++ uses) s) (hin : Inside s.trace) :
    (Call.readStep r).Ends s
      (fun p s' => ∀ bytes, p = .finished (.content bytes) → bytes = (contents s₀.onFile s'.trace).view r.txn r.page)
      fun _ _ => True := by
  have hread : (Call.readStep r).Ends s
      (fun p s' => ∀ bytes, p = .finished (.content bytes) → bytes = (account s₀.onFile s'.trace r.page).view r.txn)
      fun _ _ => True := by
    refine h.andThen (fun g s' hg h' => ?_) (fun _ _ _ => nofun) fun _ _ _ => trivial
    rw [ends_bind, ends_get, ends_bind]
    rintro bytes ⟨⟩
    rw [← hg.txn, ← hg.page]
    exact h'.bytes_eq_view (List.mem_cons_self ..) rfl
  refine (hread.and (emits_read r s)).mono (fun p s' h' bytes hp => ?_) fun _ _ _ => trivial
  exact (h'.1 bytes hp).trans (view_of_contents (hin.grown h'.2.1.trace fun _ _ he => he) _ _)

theorem Stands.write_leaves {g : Guard} (h : Stands s₀ (g.use :: uses) s) (hin : Inside s.trace) (off : Nat)
    (data : Bytes) : (g.write off data).Ends s
      (fun _ s' => contents s₀.onFile s'.trace =
        match g.mode, ((contents s₀.onFile s.trace).view g.txn g.page).patch? off data with
        | .write, some bytes => (contents s₀.onFile s.trace).write g.txn g.page bytes
        | _, _ => contents s₀.onFile s.trace)
      fun _ _ => False := by
  have hbytes : g.bytes s = (contents s₀.onFile s.trace).view g.txn g.page :=
    (h.bytes_eq_view (List.mem_cons_self ..) rfl).trans (view_of_contents hin _ _)
  unfold Guard.write
  cases hm : g.mode with
  | read => exact rfl
  | write =>
    dsimp only
    rw [ends_bind]
    refine ((h.beginChange hm).and (emits_beginChange (P := fun e => e = .opened g.txn g.page) g rfl s)).mono
      (fun g' s₁ h₁ => ?_) fun _ _ h₁ => h₁.1
    obtain ⟨⟨rfl, -, hsame⟩, ⟨hgrown, -⟩, -⟩ := h₁
    have hopen : contents s₀.onFile s₁.trace = contents s₀.onFile s.trace :=
      contents_of_grown hgrown fun e he c => by rw [he]; rfl
    rw [ends_bind, ends_get, hsame, hbytes, ← hopen]
    cases ((contents s₀.onFile s₁.trace).view g.txn g.page).patch? off data with
    | none => exact rfl
    | some bytes => exact rfl

/-! ## Runs -/

namespace World

theorem Stands.refines (h : w.Stands s₀) (hin : Inside w.store.trace) : w.Refines s₀.onFile where
  seen later past t page bytes htrace :=
    (Lawful.of_append (e := .saw t page bytes) (htrace ▸ h.store.lawful) :).trans
      (view_of_contents (Inside.of_cons (Inside.of_append (htrace ▸ hin))) t page)
  held g hg :=
    (h.store.bytes_eq_view (List.mem_append_left _ (List.mem_map_of_mem hg)) rfl).trans (view_of_contents hin _ _)
  read r hr := by
    obtain ⟨i, hi⟩ := List.getElem?_of_mem hr
    exact Stands.read_answers (h.store.perm (uses_task hi)) hin
  written g hg off data := by
    obtain ⟨i, hi⟩ := List.getElem?_of_mem hg
    exact Stands.write_leaves (h.store.perm (uses_guard hi)) hin off data
  apart op hc := contents_apply h hc
  ended t wantsCommit hu := (h.completes hu wantsCommit).mono (fun _ _ hs => hs.1.contents_eq _)
    fun _ _ hs => ⟨hs.2.1, hs.2.2.1, hs.2.2.2, hs.1.contents_eq _⟩

/-- Whatever happens to a store that has just been opened, transactions see its contents. They begin with what
the files hold, and with zeros for pages that are not there yet. -/
theorem run_refines (o : Opening s₀) (ops : List Op) (hops : ∀ op ∈ ops, op.Cached) :
    (run ops { store := s₀ }).Refines s₀.onFile ∧
      ∀ h file page, s₀.file? h = some file → page.table = file.id →
        if page.number < file.pages.pageCount then s₀.volume.readPage file page = .ok (s₀.onFile page)
        else s₀.onFile page = Bytes.zeros file.pages.pageSize := by
  refine ⟨(stands_run o ops).refines (inside_run o hops), fun h file page hf htable => ?_⟩
  split
  · rename_i hn
    rw [o.files.readPage hf, if_pos ⟨htable, hn⟩]
    rfl
  · rename_i hn
    refine (o.files.pageBytes_eq hf htable).trans (Bytes.window_of_le ?_)
    exact Nat.le_trans (o.files.extent h file hf) (Nat.mul_le_mul_right _ (Nat.le_of_not_lt hn))

/-- A page that was driven out of the only frame with changes, and whose transaction then commits. -/
theorem run_refines_stealing :
    Opening .narrow ∧ (∀ op ∈ Op.stealing true, op.Cached) ∧
      .wrote (.ofT 0) [99, 1, 2, 3, 4, 5, 6, 7] ∈ (run (Op.stealing true) { store := .narrow }).store.trace ∧
      (run (Op.stealing true) { store := .narrow }).Refines Store.narrow.onFile :=
  ⟨Opening.narrow, cached_stealing true, by decide +kernel,
    (run_refines Opening.narrow (Op.stealing true) (cached_stealing true)).1⟩

end World

end TupleStore
