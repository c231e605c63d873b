import TupleStore.Proofs.Attribution
import TupleStore.Proofs.Endings

/-!
# Before-images

What the before-images say of their pages, in every state of a run. They tie frames, retained images, locks and files
together, and so they are what isolation and rollback stand on.

* `Changing` : a transaction has opened or changed a page, and has not ended since. Drafts have no other owners
  (`Promised.changing_handleAll`);
* `Pool.HasImage`, `World.IsGuarded` : a page has a before-image, and a frame has a guard to write;
* `World.KeepsImages` : what is known of before-images, and of frames that have none;
* `World.handleAll_keepsImages` : it is so, whatever has happened. A frame without a before-image is clean, unless a
  transaction has gone astray on its page. Then it can have a mark though it has no change
  (`World.keepsImages_straying`).
-/

namespace TupleStore

set_option autoImplicit false

open TupleStore.Action

/-! ## Transactions at work -/

/-- A transaction has opened or changed a page, and has not ended since. -/
def Changing (t : TxnId) (page : PageId) : List Effect → Prop
  | [] => False
  | .opened u p :: past => (u = t ∧ p = page) ∨ Changing t page past
  | .changed u p _ :: past => (u = t ∧ p = page) ∨ Changing t page past
  | .completed u _ :: past => u ≠ t ∧ Changing t page past
  | _ :: past => Changing t page past

variable {s₀ : Store} {w : World} {stray : PageId → TxnId → Prop} {d first : PageId → Draft} {t : TxnId} {page : PageId}

/-- The work of a transaction ends none. -/
theorem Changing.grown {past now : List Effect} {actor : Option TxnId} (h : Changing t page past)
    (hgrown : Grown (Effect.By actor) past now) : Changing t page now := by
  obtain ⟨more, rfl, hby⟩ := hgrown
  induction more with
  | nil => exact h
  | cons e more ih =>
    have ih := ih fun e' he' => hby e' (List.mem_cons_of_mem _ he')
    have he := hby e (List.mem_cons_self ..)
    cases e with
    | opened u p => exact .inr ih
    | changed u p bytes => exact .inr ih
    | completed u commits => exact he.elim
    | _ => exact ih

/-- Whoever owns a draft is at work on its page. -/
theorem changing_drafts {past : List Effect} (more : List Effect)
    (h : ∀ t, (first page).owner = some t → Changing t page past) :
    ∀ t, (drafts first more page).owner = some t → Changing t page (more ++ past) := by
  induction more with
  | nil => exact h
  | cons e more ih =>
    intro t ht
    have ht : ((drafts first more page).record page e).owner = some t := ht
    cases e with
    | opened u p =>
      simp only [Draft.record] at ht
      split at ht
      · exact .inl ⟨Option.some.inj ht, by assumption⟩
      · exact .inr (ih t ht)
    | changed u p bytes =>
      simp only [Draft.record] at ht
      split at ht
      · exact .inl ⟨Option.some.inj ht, by assumption⟩
      · exact .inr (ih t ht)
    | completed u commits =>
      simp only [Draft.record, Draft.complete] at ht
      split at ht
      · cases ht
      · rename_i hu
        exact ⟨fun e => hu (e ▸ ht), ih t ht⟩
    | _ => exact ih t ht

/-- What does not count is not the end of a transaction. -/
theorem Op.ongoing_of_counts {op : Op} (h : op.counts w = false) : op.Ongoing := by
  cases op with
  | complete t wantsCommit => cases h
  | _ => trivial

namespace World.Promised

variable (h : w.Promised s₀ stray d)

include h

/-- After an event, too, whoever owns a draft is at work on its page. -/
theorem changing_handle {e : Event} (he : e.Tame) (hstray : ∀ page t, w.Strays page t → stray page t)
    (hd : ∀ page t, (d page).owner = some t → Changing t page w.store.trace) :
    ∀ page t, (e.drafts w d page).owner = some t → Changing t page (w.handle e).store.trace := by
  intro page
  cases e with
  | op op =>
    show ∀ t, ((if op.counts w then drafts d (w.since (w.apply op)) else d) page).owner = some t →
      Changing t page (w.apply op).store.trace
    split
    · rw [← h.since_append he hstray]
      exact changing_drafts _ (hd page)
    · rename_i hc
      have ho := Op.ongoing_of_counts (Bool.eq_false_iff.2 hc)
      exact fun t ht => (hd page t ht).grown (leads_apply w he ho).trace
  | discard q =>
    intro t ht
    refine hd page t ?_
    simp only [Event.drafts] at ht
    split at ht
    · exact ht
    · exact ht
  | _ => exact he.elim

theorem changing_handleAll {events : List Event} (htame : ∀ e ∈ events, e.Tame) (hstray : ∀ page t, stray page t)
    (hd : ∀ page t, (d page).owner = some t → Changing t page w.store.trace) :
    ∀ page t, (draftsAfter events w d page).owner = some t → Changing t page (World.handleAll events w).store.trace := by
  induction events generalizing w d with
  | nil => exact hd
  | cons e events ih =>
    have he := htame e (List.mem_cons_self ..)
    have hall : ∀ page t, w.Strays page t → stray page t := fun page t _ => hstray page t
    exact ih (h.handle he hall).1 (fun e' he' => htame e' (List.mem_cons_of_mem _ he')) (h.changing_handle he hall hd)

end World.Promised

/-! ## Guards -/

/-- A frame has a guard to write. -/
def World.IsGuarded (w : World) (f : FrameId) : Prop := ∃ g ∈ w.guards, g.frame = f ∧ g.mode = .write

theorem Request.changed_of_uses {r : Request} {u : Use} (hu : u ∈ r.uses) : u.changed = false := by
  unfold Request.uses at hu
  split at hu
  · exact (List.not_mem_nil hu).elim
  · exact (List.not_mem_nil hu).elim
  · rw [List.mem_singleton.1 hu]
  · rw [List.mem_singleton.1 hu]

/-- A task that waits has not opened its page yet. -/
theorem Task.changed_of_uses {task : Task} {u : Use} (hu : u ∈ task.uses s₀) : u.changed = false := by
  have hat : ∀ {t : TxnId} {target asking}, u ∈ usesAt t target asking → u.changed = false := by
    intro t target asking hu
    unfold usesAt at hu
    split at hu
    · exact (List.not_mem_nil hu).elim
    · exact Request.changed_of_uses hu
  cases task with
  | ask r => exact Request.changed_of_uses hu
  | call c =>
    cases c with
    | read r => exact Request.changed_of_uses hu
    | write r _ => exact Request.changed_of_uses hu
    | insert i _ => exact hat hu
    | delete d _ => exact hat hu
    | scan c => exact hat hu
  | flush fl =>
    obtain ⟨e, -, rfl⟩ := List.mem_map.1 hu
    rfl

/-- Only guards to write work on pages. -/
theorem World.isGuarded_of_worksOn {f : FrameId} (hm : w.store.pool.Maps) (hf : w.store.pool.find? page = some f)
    (hw : w.store.WorksOn (w.uses s₀) page t) : w.IsGuarded f := by
  obtain ⟨u, hu, hp, hchanged, hholder⟩ := hw
  rcases List.mem_append.1 hu with hu | hu
  · obtain ⟨g, hg, rfl⟩ := List.mem_map.1 hu
    refine ⟨g, hg, hm.frame_inj hp ((hm page f).1 hf), ?_⟩
    exact congrArg Prod.snd (Option.some.inj hholder)
  · obtain ⟨task, -, hu⟩ := List.mem_flatMap.1 hu
    cases (Task.changed_of_uses hu).symm.trans hchanged

/-! ## Before-images -/

/-- A page has a before-image, in its frame or retained. -/
def Pool.HasImage (p : Pool) (page : PageId) (b : BeforeImage) : Prop :=
  (∃ f, p.find? page = some f ∧ (p.frame f).before = some b) ∨ p.retained[page]? = some b

/-- What is known of before-images, for drafts of all pages and transactions that may have gone astray. -/
structure World.KeepsImages (w : World) (d : PageId → Draft) (stray : PageId → TxnId → Prop) : Prop where
  /-- The owner is at work on the page, and has it to itself. -/
  owned : ∀ page b, w.store.pool.HasImage page b →
    Changing b.owner page w.store.trace ∧ w.store.mode? b.owner page = some .write
  image : ∀ page b, w.store.pool.HasImage page b → b.bytes = (d page).committed
  sole : ∀ page b b', w.store.pool.HasImage page b → w.store.pool.HasImage page b' → b = b'
  retained : ∀ page b, w.store.pool.retained[page]? = some b → w.store.pool.find? page = none ∧ b.onDisk = true
  /-- What is not on disk has not reached the file. -/
  unstolen : ∀ page b, w.store.pool.HasImage page b → b.onDisk = false → w.store.onFile page = b.bytes
  clean : ∀ page f, w.store.pool.find? page = some f → ¬ w.IsGuarded f → (w.store.pool.frame f).dirtyBy = none →
    (w.store.pool.frame f).bytes = w.store.onFile page
  /-- Without a before-image there is nothing to be undone, and nobody has left a mark but by mistake. -/
  plain : ∀ page f, w.store.pool.find? page = some f → (w.store.pool.frame f).before = none →
    (w.store.pool.frame f).bytes = (d page).committed ∧
      ∀ t, (w.store.pool.frame f).dirtyBy = some t → stray page t

namespace World.Promised

variable (h : w.Promised s₀ stray d)

include h

theorem cached_of_find? {f : FrameId} (hf : w.store.pool.find? page = some f) :
    (w.store.copies page).cached = some (w.store.pool.frame f).copy := by
  have hm := h.store.whole.balanced.pool.mapped
  exact Store.cached_eq hm ((hm page f).1 hf)

theorem before_of_hasImage {b : BeforeImage} (hb : w.store.pool.HasImage page b) :
    (w.store.copies page).before = some b := by
  rcases hb with ⟨f, hf, hb⟩ | hb
  · rw [Copies.before, h.cached_of_find? hf]
    exact hb
  · exact (h.store.pages page).before_of_kept hb

theorem keepsImages (hd : ∀ page t, (d page).owner = some t → Changing t page w.store.trace) : w.KeepsImages d stray where
  owned page b hb := by
    have hp := h.store.pages page
    have howner := hp.owned b (h.before_of_hasImage hb)
    exact ⟨hd page _ howner, hp.locked _ howner⟩
  image page b hb := (h.store.pages page).image b (h.before_of_hasImage hb)
  sole page b b' hb hb' := Option.some.inj ((h.before_of_hasImage hb).symm.trans (h.before_of_hasImage hb'))
  retained page b hb := by
    have hp := h.store.pages page
    have hnone : (w.store.copies page).cached = none := by
      cases hc : (w.store.copies page).cached with
      | none => rfl
      | some c => cases (hp.apart c hc).symm.trans hb
    have hidle := (h.store.whole.idle_of_uncached (Option.map_eq_none_iff.1 hnone)).not_worksOn
    refine ⟨Option.map_eq_none_iff.1 hnone, ?_⟩
    exact hp.stolen (fun c hc => nomatch hnone.symm.trans hc) hidle b (hp.before_of_kept hb)
  unstolen page b hb hdisk := by
    have hp := h.store.pages page
    have hbefore := h.before_of_hasImage hb
    exact (hp.unstolen b hbefore hdisk).trans (hp.image b hbefore).symm
  clean page f hf hg hclean := by
    have hp := h.store.pages page
    have hcached := h.cached_of_find? hf
    have hidle : ∀ t, ¬ w.store.WorksOn (w.uses s₀) page t := fun t hw =>
      hg (isGuarded_of_worksOn h.store.whole.balanced.pool.mapped hf hw)
    have hfile := hp.settled (fun c hc => by cases hcached.symm.trans hc; exact hclean) hidle
    exact (hp.content _ hcached).trans hfile.symm
  plain page f hf hb := by
    have hp := h.store.pages page
    have hcached := h.cached_of_find? hf
    have hnone : (w.store.copies page).before = none := by
      rw [Copies.before, hcached]
      exact hb
    refine ⟨(hp.content _ hcached).trans (hp.plain hnone).1, fun t ht => ?_⟩
    rcases hp.marked _ t hcached ht with hstray | ⟨b, hb', -⟩
    · exact hstray
    · cases hb.symm.trans hb'

end World.Promised

namespace World

/-- Whatever has happened, before-images belong to transactions at work and hold what was committed, and frames without
them hold it, too. -/
theorem handleAll_keepsImages (o : Opening s₀) (events : List Event) (htame : ∀ e ∈ events, e.Tame) :
    (handleAll events { store := s₀ }).KeepsImages
      (draftsAfter events { store := s₀ } fun page => .ofBytes (s₀.onFile page)) (HasStrayed events { store := s₀ }) := by
  have h := (o.promised (HasStrayed events { store := s₀ })).handleAll htame fun before hb _ _ hs => ⟨before, hb, hs⟩
  exact h.keepsImages ((o.promised fun _ _ => True).changing_handleAll htame (fun _ _ => trivial) fun _ _ ho => nomatch ho)

/-- The image of a page that was flushed before it was discarded is retained. -/
theorem keepsImages_discarding :
    Opening .narrow ∧ (∀ e ∈ discarding, e.Tame) ∧
      (handleAll discarding { store := .narrow }).KeepsImages
        (draftsAfter discarding { store := .narrow } fun page => .ofBytes (Store.narrow.onFile page))
        (HasStrayed discarding { store := .narrow }) ∧
      (handleAll discarding { store := .narrow }).store.pool.retained[PageId.ofT 0]? =
        some ⟨⟨1⟩, Store.narrow.onFile (.ofT 0), true⟩ := by
  have htame : ∀ e ∈ discarding, e.Tame := by simp [discarding, Event.Tame, Op.Cached]
  exact ⟨Opening.narrow, htame, handleAll_keepsImages Opening.narrow discarding htame, by decide +kernel⟩

/-- A transaction that has gone astray leaves its mark on a frame that has no before-image, and no guard. -/
theorem keepsImages_straying :
    Opening .ofPage ∧ (∀ e ∈ straying, e.Tame) ∧
      let w := handleAll straying { store := .ofPage }
      w.guards = [] ∧ ∃ f, w.store.pool.find? (.ofT 0) = some f ∧ (w.store.pool.frame f).before = none ∧
        (w.store.pool.frame f).dirtyBy = some ⟨1⟩ := by
  have htame : ∀ e ∈ straying, e.Tame := by simp [straying, Event.Tame, Op.Cached]
  refine ⟨Opening.ofFile (by decide) .., htame, by decide +kernel, 1, by decide +kernel, by decide +kernel, ?_⟩
  decide +kernel

end World

end TupleStore
