import TupleStore.Proofs.Ledger.Redo
import TupleStore.Proofs.Refinement

/-!
# The log says what is committed

Read from its beginning, the log comes to the committed bytes of all pages: the commit of a transaction installs
what the transaction has logged last of each of its pages, and nothing else counts. Changes are logged when a page
is driven out, when it is flushed and at the commit, several times or once; the last time is always the final
content, because a change that is not in the log waits in its frame (`Invariant.unlogged`).

`World.Redoes` says this of a world, and holds after every run.
-/

namespace TupleStore

set_option autoImplicit false

open TupleStore.Action

/-- What is committed can be read from the log alone. -/
structure World.Redoes (first : PageId → Bytes) (w : World) (records : List LogRecord) : Prop where
  /-- The log has these records, and no others. -/
  log : w.store.log.Holds records
  /-- The last changes that were logged by transactions before their commits come to the committed pages. -/
  pages : (redo first records).pages = (w.contents first).committed
  /-- So they did at each commit, whose changes then lead from the committed pages to those that its transaction
  leaves. -/
  commits : ∀ earlier t later, records = earlier ++ .commit t :: later →
    ∃ newer past, w.store.trace = newer ++ .logged (.commit t) :: past ∧ recorded past = earlier ∧
      (redo first earlier).pages = (TupleStore.contents first past).committed ∧
      ∀ page before after, (redo first earlier).last t page = some (before, after) →
        before = (TupleStore.contents first past).committed page ∧ after = (TupleStore.contents first past).view t page

variable {first : PageId → Bytes} {s₀ s s' : Store} {w : World} {t : TxnId} {commits : Bool}

/-! ## Ends of transactions -/

theorem Finishes.redone (hf : Finishes t commits s s') (hl : Lawful first s'.trace) (hin : Inside s.trace)
    (h : Redone first s.trace) (hr : Ripe first s.trace) : Redone first s'.trace ∧ Ripe first s'.trace := by
  obtain ⟨past, htrace, writes, mid, rfl, hw, hmid⟩ := hf.trace
  rw [htrace] at hl ⊢
  have hwrites : Grown Effect.Writes (.forced :: .logged (endRecord t commits) :: mid)
    (writes ++ .forced :: .logged (endRecord t commits) :: mid) := ⟨writes, rfl, hw⟩
  have hlate := hl.2.2.of_grown hwrites
  have hlmid : Lawful first mid := hlate.2.2
  cases commits with
  | true =>
    have hchanges : Grown (Effect.By none) s.trace mid := hmid.mono fun e he => by
      cases e with
      | logged r =>
        cases r with
        | update _ _ _ _ => trivial
        | _ => exact he.elim
      | _ => exact he.elim
    have hin : Inside mid := hin.grown hchanges fun _ _ => id
    have hredone := h.grown hlmid hin hchanges
    have hrmid : Ripe first mid := hr.grown hchanges fun _ hc => hc
    have hcommit : Ripe first (.forced :: .logged (.commit t) :: mid) := ⟨hredone, hrmid⟩
    have hripe : Ripe first (writes ++ _) := hcommit.grown hwrites fun _ hc => hc
    exact ⟨hredone.ended hlmid hin (.of_closes (.refl _) hw) fun _ => hlate.2.1, hripe⟩
  | false =>
    have hrmid : Ripe first mid := hr.grown hmid fun _ hc => by
      rcases hc with hc | hc
      · exact hc
      · cases hc
    have habort : Ripe first (.forced :: .logged (.abort t) :: mid) := hrmid
    have hripe : Ripe first (writes ++ _) := habort.grown hwrites fun _ hc => hc
    exact ⟨h.ended (hlmid.of_grown hmid) hin (.of_closes hmid hw) nofun, hripe⟩

/-! ## Runs -/

namespace World

/-- The log is up to date whatever happens, and was so at each commit. -/
theorem redone_apply (h : w.Stands s₀) (hin : Inside w.store.trace) (hr : Redone s₀.onFile w.store.trace)
    (hripe : Ripe s₀.onFile w.store.trace) {op : Op} (hc : op.Cached) :
    Redone s₀.onFile (w.apply op).store.trace ∧ Ripe s₀.onFile (w.apply op).store.trace := by
  have hlawful := (h.apply op).store.lawful
  by_cases ho : op.Ongoing
  · have hgrown := (leads_apply w hc ho).trace
    exact ⟨hr.grown hlawful (inside_apply h hin hc) hgrown, hripe.grown hgrown fun _ he => he⟩
  · cases op with
    | complete t wantsCommit =>
      rcases finishes_apply h t wantsCommit with e | ⟨commits, hf⟩
      · rw [e]
        exact ⟨hr, hripe⟩
      · exact hf.redone hlawful hin hr hripe
    | _ => exact absurd trivial ho

theorem redone_run (o : Opening s₀) {ops : List Op} (hops : ∀ op ∈ ops, op.Cached) :
    Redone s₀.onFile (run ops { store := s₀ }).store.trace ∧ Ripe s₀.onFile (run ops { store := s₀ }).store.trace := by
  have hrun : ∀ (ops : List Op) (w : World), w.Stands s₀ → Inside w.store.trace → Redone s₀.onFile w.store.trace →
      Ripe s₀.onFile w.store.trace → (∀ op ∈ ops, op.Cached) →
      Redone s₀.onFile (run ops w).store.trace ∧ Ripe s₀.onFile (run ops w).store.trace := by
    intro ops
    induction ops with
    | nil => exact fun _ _ _ hr hripe _ => ⟨hr, hripe⟩
    | cons op ops ih =>
      intro w h hin hr hripe hops
      have hop := hops op (List.mem_cons_self ..)
      obtain ⟨hr', hripe'⟩ := redone_apply h hin hr hripe hop
      exact ih _ (h.apply op) (inside_apply h hin hop) hr' hripe' fun op' hop' => hops op' (List.mem_cons_of_mem _ hop')
  have htrace : (World.mk s₀ [] []).store.trace = [] := o.trace
  refine hrun ops _ (stands_run o []) ?_ ?_ ?_ hops
  · rw [htrace]
    exact fun _ _ => List.not_mem_nil
  · rw [htrace]
    exact .nil _
  · rw [htrace]
    trivial

/-- After every run on a store that has just been opened with an empty log, what is committed can be read from
the log, from the bytes of the files on and from zeros for pages that were not there yet. -/
theorem run_redoes (o : Opening s₀) (hlog : s₀.log.Holds []) (ops : List Op) (hops : ∀ op ∈ ops, op.Cached) :
    (∃ records, (run ops { store := s₀ }).Redoes s₀.onFile records) ∧
      ∀ h file page, s₀.file? h = some file → page.table = file.id →
        if page.number < file.pages.pageCount then s₀.volume.readPage file page = .ok (s₀.onFile page)
        else s₀.onFile page = Bytes.zeros file.pages.pageSize := by
  have hstands := stands_run o ops
  obtain ⟨hredone, hripe⟩ := redone_run o hops
  refine ⟨⟨_, hstands.store.log hlog, hredone.pages, fun earlier t later hsplit => ?_⟩, fun h file page hf htable => ?_⟩
  · obtain ⟨newer, past, htrace, rfl⟩ := eq_append_of_recorded hsplit
    rw [htrace] at hripe
    have hpast := hripe.of_append
    have hlaw : Effect.Lawful s₀.onFile past (.logged (.commit t)) := (htrace ▸ hstands.store.lawful).of_append
    refine ⟨newer, past, htrace, rfl, hpast.pages, fun page before after hlast => ?_⟩
    obtain ⟨-, hbefore, hafter⟩ := hpast.last t page _ hlast
    exact ⟨hbefore, hafter (hlaw page)⟩
  · split
    · rename_i hn
      rw [o.files.readPage hf, if_pos ⟨htable, hn⟩]
      rfl
    · rename_i hn
      refine (o.files.pageBytes_eq hf htable).trans (Bytes.window_of_le ?_)
      exact Nat.le_trans (o.files.extent h file hf) (Nat.mul_le_mul_right _ (Nat.le_of_not_lt hn))

/-- A page that was driven out of the only frame with changes, and whose transaction then commits. -/
theorem run_redoes_stealing :
    Opening .narrow ∧ Store.narrow.log.Holds [] ∧ (∀ op ∈ Op.stealing true, op.Cached) ∧
      recorded (run (Op.stealing true) { store := .narrow }).store.trace =
        [.update ⟨1⟩ (.ofT 0) [0, 1, 2, 3, 4, 5, 6, 7] [99, 1, 2, 3, 4, 5, 6, 7], .commit ⟨1⟩, .commit ⟨2⟩] ∧
      ∃ records, (run (Op.stealing true) { store := .narrow }).Redoes Store.narrow.onFile records :=
  ⟨Opening.narrow, rfl, cached_stealing true, by decide +kernel,
    (run_redoes Opening.narrow rfl (Op.stealing true) (cached_stealing true)).1⟩

end World

end TupleStore
