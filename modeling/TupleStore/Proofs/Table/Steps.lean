import TupleStore.Proofs.Attribution
import TupleStore.Proofs.Table.Rows

/-!
# Rows and steps of calls

What a step of a call does to the rows of tables. A call that inserts or deletes a tuple changes a row with its last
step, the one that ends it, and no step before changes any: a page that is only inspected, a page found full after
all, a page appended and a step that fails leave the rows as they are.

* `Tells` : the pages of a store say what the rows are, and `Made` : they do after changes that could be made;
* `Call.change?` : what a call has changed that ends with a reply, which it was asked for (`Call.Asks`);
* `Stands.insertion_tells`, `Stands.deletion_tells`, `Stands.call_tells` : steps of calls.

The page that a guard gives is the one that its transaction is to see, and no other transaction can have changed it
(`Stands.heap_eq`), so what is found in it still holds when it is written.
-/

namespace TupleStore

set_option autoImplicit false

open TupleStore.Action

/-- The schema of a table. -/
def Store.schema? (s : Store) (table : TableId) : Option Schema :=
  (s.volume.table? s.catalog table).map fun x => x.2.schema

/-- After a trace, the pages of tables say what the rows are, and nothing was written past the cache. -/
structure Tells (s₀ : Store) (r : Rows) (trace : List Effect) : Prop where
  inside : Inside trace
  spells : (contents s₀.onFile trace).Spells s₀.schema? r

/-- After a trace, changes have been made of the rows, each of which could be made. -/
def Made (s₀ : Store) (r : Rows) (changes : List Change) (trace : List Effect) : Prop :=
  r.Fits changes ∧ Tells s₀ (r.after changes) trace

/-- What a call has changed that ends with a reply. A tuple that is inserted has its texts clipped. -/
def Call.change? : Call → Reply → Option Change
  | .insert i _, .inserted _ tuple =>
    tuple.recordId.map fun rid => .inserted i.txn rid (i.tuple.fields.map Field.clip)
  | .delete d _, .deleted _ => some (.deleted d.txn d.recordId)
  | _, _ => none

/-- Whether a call is to make a change. Where a tuple will lie that is inserted is not known before. -/
def Call.Asks (c : Call) (change : Change) : Prop :=
  match c with
  | .insert i _ => ∃ rid, change = .inserted i.txn rid (i.tuple.fields.map Field.clip)
  | .delete d _ => change = .deleted d.txn d.recordId
  | _ => False

theorem Call.asks_of_change? {c : Call} {reply : Reply} {change : Change} (h : c.change? reply = some change) :
    c.Asks change := by
  unfold Call.change? at h
  split at h
  · obtain ⟨rid, -, rfl⟩ := Option.map_eq_some_iff.1 h
    exact ⟨rid, rfl⟩
  · exact (Option.some.inj h).symm
  · cases h

/-- The transaction of a call, and whether the call scans. -/
def Call.caller : Call → TxnId × Bool
  | .scan c => (c.txn, true)
  | c => (c.txn, false)

/-- A call changes tuples only, and only in the table of its handle. -/
def Call.Plain (s₀ : Store) : Call → Prop
  | .write _ patch => patch = none
  | .delete d _ => ∀ file, s₀.file? d.handle = some file → d.recordId.page.table = file.id
  | _ => True

variable {s₀ s s' : Store} {uses : List Use} {r : Rows} {past now : List Effect}

theorem Tells.looks {t : Option TxnId} (h : Tells s₀ r past) (hl : Grown (Effect.Looks t) past now) :
    Tells s₀ r now where
  inside := h.inside.grown hl fun _ _ he => he
  spells := by
    rw [contents_of_looks s₀.onFile hl]
    exact h.spells

theorem Tells.opened {t : TxnId} {page : PageId} (h : Tells s₀ r past) : Tells s₀ r (.opened t page :: past) where
  inside q bytes hin := (List.mem_cons.1 hin).elim (fun e => by cases e) (h.inside q bytes)
  spells := h.spells

theorem Tells.changed {t : TxnId} {page : PageId} {bytes : Bytes} {change : Change} (h : Tells s₀ r past)
    (hspells : ((contents s₀.onFile past).write t page bytes).Spells s₀.schema? (r.record change)) :
    Tells s₀ (r.record change) (.changed t page bytes :: past) where
  inside q bytes' hin := (List.mem_cons.1 hin).elim (fun e => by cases e) (h.inside q bytes')
  spells := hspells

theorem Made.one {change : Change} (h : r.Takes change) (ht : Tells s₀ (r.record change) now) :
    Made s₀ r [change] now :=
  ⟨Rows.fits_singleton h, ht⟩

/-- A page opened for change through a guard that has not been used. -/
theorem ends_beginChange {g : Guard} (hc : g.changed = false) :
    g.beginChange.Ends s
      (fun g' s' => g' = { g with changed := true } ∧ s'.trace = .opened g.txn g.page :: s.trace) fun _ _ => False := by
  unfold Guard.beginChange
  rw [hc]
  exact ⟨rfl, rfl⟩

namespace Stands

/-! ## Pages under guards -/

theorem schema?_eq (h : Stands s₀ uses s) {hd : HandleId} {file : HeapFile}
    (hf : s.volume.handles[hd]? = some file) : s₀.schema? file.id = some file.schema := by
  obtain ⟨file₀, hfile, hshape⟩ := h.ground.grown.file_back hf
  have hhandle := h.ground.files.handle hd file hf
  rw [h.ground.catalog] at hhandle
  simp only [Volume.shape, Prod.mk.injEq] at hshape
  simp [Store.schema?, Volume.table?, hhandle, hfile, hshape.2.2.1]

/-- A page under a guard, read with a schema, is the page that the transaction is to see. -/
theorem heap_eq {g : Guard} (h : Stands s₀ (g.use :: uses) s) (hin : Inside s.trace) (schema : Schema) :
    (⟨g.page, schema, g.bytes s⟩ : HeapPage) = (contents s₀.onFile s.trace).heap g.txn schema g.page :=
  congrArg (HeapPage.mk g.page schema)
    ((h.bytes_eq_view (List.mem_cons_self ..) rfl).trans (view_of_contents hin _ _))

/-- A request, and what is done with its guard, where the request only reads. -/
theorem andThen_leads {σ α : Type} {q : Request} (h : Stands s₀ (q.uses ++ uses) s) {waiting : RequestStage → σ}
    {body : Guard → Action (Progress σ α)} {good : Progress σ α → Store → Prop} {bad : Error → Store → Prop}
    (hbody : ∀ g s', g.Answers q → Stands s₀ (g.use :: uses) s' → Leads (Effect.Looks (some q.txn)) s s' →
      (body g).Ends s' good bad)
    (hwait : ∀ stage s', Leads (Effect.Looks (some q.txn)) s s' → good (.blocked (waiting stage)) s')
    (herr : ∀ e s', Leads (Effect.Looks (some q.txn)) s s' → bad e s') : (q.andThen waiting body).Ends s good bad := by
  unfold Request.andThen
  rw [ends_bind]
  refine (h.requestRun.and (emits_requestRun q s)).mono (fun a s' h' => ?_) fun e s' h' => herr e s' h'.2
  obtain ⟨hrun, hl, -⟩ := h'
  cases a with
  | done g => exact hbody g s' hrun.1 hrun.2 hl
  | waiting q' => exact hwait _ s' hl

/-! ## Insertions -/

/-- What a step of an insertion does to the rows. -/
def Inserts (s₀ : Store) (r : Rows) (i : Insertion) : Progress Insertion (PageId × Tuple) → Store → Prop
  | .finished (page, tuple), s => Made s₀ r ((Call.insert i false).change? (.inserted page tuple)).toList s.trace
  | .moved i', s => (∃ stage asking, i' = { i with stage, asking }) ∧ Tells s₀ r s.trace
  | .blocked i', s => (∃ stage asking, i' = { i with stage, asking }) ∧ Tells s₀ r s.trace

theorem place_tells {i : Insertion} {file : HeapFile} {number : Nat}
    (hf : s₀.schema? file.id = some file.schema)
    (h : Stands s₀ (Request.uses ⟨i.txn, ⟨file.id, number⟩, .write, i.asking⟩ ++ uses) s) (ht : Tells s₀ r s.trace) :
    (i.place file number).Ends s (Inserts s₀ r i) fun _ s' => Tells s₀ r s'.trace := by
  refine Stands.andThen_leads (q := ⟨i.txn, ⟨file.id, number⟩, .write, i.asking⟩) h (fun g s₁ hg h₁ hl => ?_)
    (fun asking s₁ hl => ⟨⟨_, asking, rfl⟩, ht.looks hl.trace⟩) fun _ s₁ hl => ht.looks hl.trace
  have ht₁ := ht.looks hl.trace
  rw [ends_bind, ends_get, h₁.heap_eq ht₁.inside]
  dsimp only
  split
  · exact ⟨⟨_, _, rfl⟩, ht₁⟩
  · rename_i slot hfree
    rw [ends_bind]
    refine (ends_beginChange hg.unchanged).mono (fun g' s₂ h₂ => ?_) fun _ _ h => h.elim
    obtain ⟨rfl, htrace⟩ := h₂
    have ht₂ : Tells s₀ r s₂.trace := htrace ▸ ht₁.opened
    split
    · exact ht₂
    · rename_i heap tuple hins
      obtain ⟨slot, ha, hfree, rfl, rfl⟩ := HeapPage.of_insert hins
      rw [hg.txn, hg.page] at hfree
      have hs : s₀.schema? (RecordId.mk ⟨file.id, number⟩ slot).page.table = some file.schema := hf
      have hnone : r.view i.txn ⟨⟨file.id, number⟩, slot⟩ = none :=
        (ht₁.spells.view _ _ _ hs).trans (HeapPage.row?_of_firstFree? hfree)
      have hspells := ht₁.spells.insert hs (HeapPage.lt_of_firstFree? hfree) ha
      show Made s₀ r [.inserted i.txn ⟨g.page, slot⟩ (i.tuple.fields.map Field.clip)]
        (.changed g.txn g.page _ :: s₂.trace)
      rw [← show g.page = ⟨file.id, number⟩ from hg.page] at hnone
      refine .one hnone (ht₂.changed ?_)
      rw [htrace, hg.txn, hg.page]
      exact hspells

theorem insertion_tells {i : Insertion} (h : Stands s₀ (usesAt i.txn (i.target? s₀) i.asking ++ uses) s)
    (ht : Tells s₀ r s.trace) : i.step.Ends s (Inserts s₀ r i) fun _ s' => Tells s₀ r s'.trace := by
  unfold Insertion.step
  rw [ends_bind]
  refine (h.file i.handle).mono (fun file s' h' => ?_) fun _ s' h' => h'.1 ▸ ht
  obtain ⟨rfl, hfile, file₀, hfile₀, hid⟩ := h'
  rw [Insertion.target?, hfile₀, Option.bind_some, hid] at h
  cases hs : i.stage with
  | inspect number =>
    rw [hs] at h
    dsimp only at h ⊢
    split
    · rename_i hn
      rw [if_pos hn] at h
      exact Stands.andThen_leads (q := ⟨i.txn, ⟨file.id, number⟩, .read, i.asking⟩) h
        (fun g s₁ _ _ hl => ⟨⟨_, _, rfl⟩, ht.looks hl.trace⟩)
        (fun asking s₁ hl => ⟨⟨_, asking, rfl⟩, ht.looks hl.trace⟩) fun _ s₁ hl => ht.looks hl.trace
    · rw [ends_bind]
      exact (emits_allocatePage (P := Effect.Looks none) i.handle _).mono
        (fun _ s₁ h₁ => ⟨⟨_, _, rfl⟩, ht.looks h₁.1.trace⟩) fun _ s₁ h₁ => ht.looks h₁.trace
  | place number =>
    rw [hs] at h
    exact place_tells (h.schema?_eq hfile) h ht

/-! ## Deletions -/

theorem deletion_tells {d : Deletion} (h : Stands s₀ (usesAt d.txn (d.target? s₀) d.asking ++ uses) s)
    (hd : ∀ file, s₀.file? d.handle = some file → d.recordId.page.table = file.id) (ht : Tells s₀ r s.trace) :
    d.step.Ends s
      (fun p s' => match p with
        | .finished _ => Made s₀ r [.deleted d.txn d.recordId] s'.trace
        | .moved _ => False
        | .blocked d' => (∃ asking, d' = { d with asking }) ∧ Tells s₀ r s'.trace)
      fun _ s' => Tells s₀ r s'.trace := by
  unfold Deletion.step
  rw [ends_bind]
  refine (h.file d.handle).mono (fun file s' h' => ?_) fun _ s' h' => h'.1 ▸ ht
  obtain ⟨rfl, hfile, file₀, hfile₀, hid⟩ := h'
  have hf : s₀.schema? d.recordId.page.table = some file.schema := by
    rw [hd file₀ hfile₀, hid]
    exact h.schema?_eq hfile
  rw [Deletion.target?, hfile₀, Option.map_some] at h
  refine Stands.andThen_leads (q := ⟨d.txn, d.recordId.page, .write, d.asking⟩) h (fun g s₁ hg h₁ hl => ?_)
    (fun asking s₁ hl => ⟨⟨asking, rfl⟩, ht.looks hl.trace⟩) fun _ s₁ hl => ht.looks hl.trace
  have ht₁ := ht.looks hl.trace
  unfold Deletion.vacate
  rw [ends_bind, ends_get, h₁.heap_eq ht₁.inside]
  dsimp only
  split
  · rw [ends_bind]
    refine (ends_beginChange hg.unchanged).mono (fun g' s₂ h₂ => ?_) fun _ _ h => h.elim
    obtain ⟨rfl, htrace⟩ := h₂
    have ht₂ : Tells s₀ r s₂.trace := htrace ▸ ht₁.opened
    split
    · exact ht₂
    · rename_i heap hdel
      obtain ⟨slot, hrid, hslot, hused, rfl⟩ := HeapPage.of_delete hdel
      obtain rfl : slot = d.recordId.slot := (congrArg RecordId.slot (Option.some.inj hrid)).symm
      rw [hg.txn, hg.page] at hslot hused
      have hsome : r.view d.txn d.recordId ≠ none := by
        rw [ht₁.spells.view _ _ _ hf, HeapPage.row?_of, hused]
        exact Option.some_ne_none _
      show Made s₀ r [.deleted d.txn d.recordId] (.changed g.txn g.page _ :: s₂.trace)
      refine .one hsome (ht₂.changed ?_)
      rw [htrace, hg.txn, hg.page]
      exact ht₁.spells.delete hf hslot
  · exact ht₁

/-! ## Scans -/

/-- A scan ends with what it has found once it is through with its pages. Before that it reads one more page, as its
transaction is to see it, and keeps the lock. -/
theorem scan_reads {c : Scan} (h : Stands s₀ (usesAt c.txn (c.target? s₀) c.asking ++ uses) s) (hin : Inside s.trace) :
    c.step.Ends s
      (fun p s' => Leads (Effect.Looks (some c.txn)) s s' ∧ match p with
        | .finished ts => ts = c.found ∧ c.state.limit ≤ c.state.next
        | .moved c' => c.state.next < c.state.limit ∧ ∃ file schema, s₀.file? c.handle = some file ∧
          s₀.schema? file.id = some schema ∧
          c' = c.add ⟨c.state.next + 1, c.state.limit,
            ((contents s₀.onFile s.trace).heap c.txn schema ⟨file.id, c.state.next⟩).tuples⟩ ∧
          s'.pool.locks.mode? c.txn ⟨file.id, c.state.next⟩ ≠ none
        | .blocked c' => ∃ asking, c' = { c with asking })
      fun _ s' => Leads (Effect.Looks (some c.txn)) s s' := by
  unfold Scan.step
  by_cases hn : c.state.next < c.state.limit
  · rw [if_pos hn, ends_bind]
    refine (h.file c.handle).mono (fun file s' h' => ?_) fun _ s' h' => h'.1 ▸ .refl _
    obtain ⟨rfl, hfile, file₀, hfile₀, hid⟩ := h'
    rw [Scan.target?, hfile₀, Option.bind_some, if_pos hn, hid] at h
    refine Stands.andThen_leads (q := ⟨c.txn, ⟨file.id, c.state.next⟩, .read, c.asking⟩) h (fun g s₁ hg h₁ hl => ?_)
      (fun asking s₁ hl => ⟨hl, asking, rfl⟩) fun _ s₁ hl => hl
    have hlock : s₁.pool.locks.mode? g.txn g.page ≠ none := (h₁.covered _ (List.mem_cons_self ..) _ _ rfl).ne_none
    unfold CursorState.readUnder
    rw [ends_bind, ends_bind, ends_get, h₁.heap_eq (hin.grown hl.trace fun _ _ he => he), contents_of_looks _ hl.trace,
      hg.txn, hg.page]
    refine ⟨hl.trans (.quiet rfl (g.locks_giveBack _)), hn, file₀, file.schema, hfile₀, hid ▸ h.schema?_eq hfile, ?_,
      ?_⟩
    · rw [hid]
    · rw [hg.txn, hg.page] at hlock
      rw [hid]
      rwa [← g.locks_giveBack] at hlock
  · rw [if_neg hn]
    exact ⟨.refl _, rfl, Nat.le_of_not_lt hn⟩

/-! ## All calls -/

/-- A call that ends changes the rows as its reply says, and a step that does not end it changes none. It goes on as
what it was asked for. -/
theorem call_tells {c : Call} (h : Stands s₀ (c.uses s₀ ++ uses) s) (hc : c.Plain s₀) (ht : Tells s₀ r s.trace) :
    c.step.Ends s
      (fun p s' => match p with
        | .finished reply => Made s₀ r (c.change? reply).toList s'.trace
        | .moved c' => c'.caller = c.caller ∧ c'.Asks = c.Asks ∧ c'.Plain s₀ ∧ Tells s₀ r s'.trace
        | .blocked c' => c'.caller = c.caller ∧ c'.Asks = c.Asks ∧ c'.Plain s₀ ∧ Tells s₀ r s'.trace)
      fun _ s' => Tells s₀ r s'.trace := by
  cases c with
  | read q =>
    show (Call.readStep q).Ends s _ _
    exact Stands.andThen_leads (q := q) h (fun _ _ _ _ hl => ⟨trivial, ht.looks hl.trace⟩)
      (fun _ _ hl => ⟨rfl, rfl, trivial, ht.looks hl.trace⟩) fun _ _ hl => ht.looks hl.trace
  | write q patch =>
    obtain rfl : patch = none := hc
    show (Call.writeStep q none).Ends s _ _
    exact Stands.andThen_leads (q := q) h (fun _ _ _ _ hl => ⟨trivial, ht.looks hl.trace⟩)
      (fun _ _ hl => ⟨rfl, rfl, rfl, ht.looks hl.trace⟩) fun _ _ hl => ht.looks hl.trace
  | insert i marks =>
    unfold Call.step
    rw [ends_bind]
    refine (insertion_tells h ht).mono (fun p s' h' => ?_) fun _ _ h' => h'
    cases p with
    | finished a => cases marks <;> exact h'
    | moved i' =>
      obtain ⟨⟨stage, asking, rfl⟩, h'⟩ := h'
      exact ⟨rfl, rfl, trivial, h'⟩
    | blocked i' =>
      obtain ⟨⟨stage, asking, rfl⟩, h'⟩ := h'
      exact ⟨rfl, rfl, trivial, h'⟩
  | delete d marks =>
    unfold Call.step
    rw [ends_bind]
    refine (deletion_tells h hc ht).mono (fun p s' h' => ?_) fun _ _ h' => h'
    cases p with
    | finished a => cases marks <;> exact h'
    | moved d' => exact h'.elim
    | blocked d' =>
      obtain ⟨⟨asking, rfl⟩, h'⟩ := h'
      exact ⟨rfl, rfl, hc, h'⟩
  | scan c =>
    unfold Call.step
    rw [ends_bind]
    refine (scan_reads h ht.inside).mono (fun p s' h' => ?_) fun _ s' h' => ht.looks h'.trace
    have ht' := ht.looks h'.1.trace
    cases p with
    | finished a => exact ⟨trivial, ht'⟩
    | moved c' =>
      obtain ⟨-, -, file, schema, -, -, rfl, -⟩ := h'
      exact ⟨rfl, rfl, trivial, ht'⟩
    | blocked c' =>
      obtain ⟨-, asking, rfl⟩ := h'
      exact ⟨rfl, rfl, trivial, ht'⟩

end Stands

end TupleStore
