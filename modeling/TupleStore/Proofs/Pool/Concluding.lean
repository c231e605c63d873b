import TupleStore.Proofs.Pool.Drafting

/-!
# Ends of transactions among discarded pages

A commit and a rollback go through the pages that the transaction has locked, one after the other, and then through the
before-images that were kept aside. What they do to a page depends on nothing but its copies, whatever has been
discarded: `Copies.commit` and `Copies.rollback` say what.

* `Whole.forPages` : a loop over pages;
* `Whole.commit`, `Whole.rollback` : the loops in a row;
* `Whole.complete` : the end of a transaction, with its locks given back (`Store.Settles`);
* `Honors.complete` : it keeps to the drafts.
-/

namespace TupleStore

set_option autoImplicit false

open TupleStore.Action

variable {s₀ s s' s'' : Store} {uses : List Use} {f : FrameId} {page : PageId} {t : TxnId}

/-- Pages are written, and none comes or leaves. -/
structure Store.Proceeds (s s' : Store) : Prop extends Onward Effect.Quiet s s' where
  frames : ∀ f, (s'.pool.frame f).page = (s.pool.frame f).page

namespace Store.Proceeds

theorem refl (s : Store) : s.Proceeds s := ⟨.refl s, fun _ => rfl⟩

theorem trans (h : s.Proceeds s') (h' : s'.Proceeds s'') : s.Proceeds s'' :=
  ⟨h.toOnward.trans h'.toOnward, fun f => (h'.frames f).trans (h.frames f)⟩

/-- Counters count no move of a page. -/
theorem count (h : s.Proceeds s') (g : Counters → Counters) : s.Proceeds (s'.modifyPool fun p => p.count g) :=
  ⟨⟨h.trace, h.locks, h.files⟩, h.frames⟩

end Store.Proceeds

theorem Store.Whole.count (h : s.Whole s₀ uses none) (g : Counters → Counters) :
    (s.modifyPool fun p => p.count g).Whole s₀ uses none :=
  h.congr (p := s.pool.count g) rfl rfl rfl rfl rfl rfl rfl rfl _ _

theorem Store.Still.proceeds (h : s.Still s') : s.Proceeds s' :=
  ⟨⟨h.trace ▸ .refl _, h.locks, h.volume ▸ .refl _⟩, h.frames⟩

/-! ## Before-images of a frame -/

namespace Copies

variable {x : Copies} {c : Frame} {b : BeforeImage}

theorem before_of_beforeOf?_none (hb : c.beforeOf? t = none) : ∀ b, c.before = some b → b.owner ≠ t := fun b hbefore e =>
  beforeOf?_eq_none hb (by rw [hbefore, Option.map_some, e])

theorem take_of_none (hx : x.cached = some c.copy) (hb : c.beforeOf? t = none) : x.take t = x := by
  have hbefore : c.copy.before.filter (fun b => b.owner ≠ t) = c.copy.before :=
    (Drafted.filter_ne (o := c.before) (before_of_beforeOf?_none hb)).1
  unfold take
  rw [hx, Option.map_some, hbefore, ← hx]

theorem take_of_some (hx : x.cached = some c.copy) (hb : c.beforeOf? t = some b) :
    x.take t = { x with cached := some (Frame.copy { c with before := none }) } := by
  obtain ⟨hbefore, howner⟩ := beforeOf?_eq_some hb
  have hfilter : c.copy.before.filter (fun b => b.owner ≠ t) = none :=
    (Drafted.filter_eq (o := c.before) fun b' hb' => Option.some.inj (hbefore.symm.trans hb') ▸ howner).1
  unfold take
  rw [hx, Option.map_some, hfilter]
  rfl

theorem restore_of_none (hx : x.cached = some c.copy) (hb : c.beforeOf? t = none) : x.restore t = x := by
  have hbefore : c.copy.before.filter (fun b => b.owner = t) = none :=
    (Drafted.filter_ne (o := c.before) (before_of_beforeOf?_none hb)).2
  obtain ⟨cached, kept, file⟩ := x
  obtain rfl : cached = some c.copy := hx
  unfold restore
  dsimp only
  rw [hbefore]

theorem restore_of_some (hx : x.cached = some c.copy) (hb : c.beforeOf? t = some b) :
    x.restore t = ⟨some (c.restore b).copy, x.kept, if b.onDisk then b.bytes else x.file⟩ := by
  obtain ⟨hbefore, howner⟩ := beforeOf?_eq_some hb
  have hfilter : c.copy.before.filter (fun b => b.owner = t) = some b :=
    (Drafted.filter_eq (o := c.before) fun b' hb' => Option.some.inj (hbefore.symm.trans hb') ▸ howner).2.trans hbefore
  obtain ⟨cached, kept, file⟩ := x
  obtain rfl : cached = some c.copy := hx
  unfold restore
  dsimp only
  rw [hfilter]
  rfl

/-- A page that is not cached has nothing to give up there, -/
theorem take_of_uncached (t : TxnId) (hx : x.cached = none) : x.take t = x := by
  obtain ⟨cached, kept, file⟩ := x
  obtain rfl : cached = none := hx
  rfl

/-- and nothing to get back. -/
theorem restore_of_uncached (t : TxnId) (hx : x.cached = none) : x.restore t = x := by
  obtain ⟨cached, kept, file⟩ := x
  obtain rfl : cached = none := hx
  rfl

theorem take_take (t : TxnId) (x : Copies) : (x.take t).take t = x.take t := by
  obtain ⟨_ | c, kept, file⟩ := x
  · rfl
  · unfold take
    rw [Option.map_some, Option.map_some, Option.filter_filter]
    simp

theorem flush_flush (x : Copies) : x.flush.flush = x.flush := by
  have hclean := Drafted.clean_flush x
  cases hc : x.flush.cached with
  | none =>
    rw [flush, hc]
  | some c =>
    rw [flush, hc]
    exact if_pos (hclean c hc)

theorem restore_restore (t : TxnId) (x : Copies) : (x.restore t).restore t = x.restore t := by
  obtain ⟨_ | c, kept, file⟩ := x
  · rfl
  · unfold restore
    dsimp only
    cases hb : c.before.filter fun b => b.owner = t with
    | none =>
      dsimp only
      rw [hb]
    | some b => rfl

end Copies

namespace Store.Whole

/-! ## Loops -/

/-- What is done to one page after the other is done to each of them. -/
theorem forPages {α : Type} {body : α → Action PUnit} {p : α → PageId} {φ : PageId → Copies → Copies}
    (hφ : ∀ q x, φ q (φ q x) = φ q x) {l : List α} (h : s.Whole s₀ uses none)
    (hbody : ∀ a ∈ l, ∀ s', s'.Whole s₀ uses none → s.Proceeds s' → (body a).Ends s'
      (fun _ s'' => s''.Whole s₀ uses none ∧ s'.Proceeds s'' ∧
        ∀ q, s''.copies q = if q = p a then φ q (s'.copies q) else s'.copies q) fun _ _ => False) :
    (l.forM body).Ends s
      (fun _ s' => s'.Whole s₀ uses none ∧ s.Proceeds s' ∧
        ∀ q, s'.copies q = if q ∈ l.map p then φ q (s.copies q) else s.copies q)
      fun _ _ => False := by
  -- a page that is still to come has been seen to already, or not
  let I (rest : List α) (s' : Store) : Prop := (s'.Whole s₀ uses none ∧ s.Proceeds s') ∧ (∀ a ∈ rest, a ∈ l) ∧
    ∀ q, (q ∈ l.map p → q ∈ rest.map p ∨ s'.copies q = φ q (s.copies q)) ∧
      (s'.copies q = s.copies q ∨ q ∈ l.map p ∧ s'.copies q = φ q (s.copies q))
  refine (ends_forM I (fun _ _ => False) (fun a rest s' h' => ?_) l s
    ⟨⟨h, .refl s⟩, fun _ ha => ha, fun q => ⟨.inl, .inl rfl⟩⟩).mono (fun _ s' h' => ⟨h'.1.1, h'.1.2, fun q => ?_⟩)
    fun _ _ h' => h'
  · obtain ⟨⟨h', hgone⟩, hin, hpages⟩ := h'
    refine (hbody a (hin a (List.mem_cons_self ..)) s' h' hgone).mono (fun _ s'' h'' => ?_) fun _ _ h'' => h''
    obtain ⟨h'', hgone', hcopies⟩ := h''
    refine ⟨⟨h'', hgone.trans hgone'⟩, fun b hb => hin b (List.mem_cons_of_mem _ hb), fun q => ?_⟩
    obtain ⟨htodo, hdone⟩ := hpages q
    rw [hcopies]
    split
    · rename_i e
      have hmem : q ∈ l.map p := e ▸ List.mem_map_of_mem (hin a (List.mem_cons_self ..))
      have hself : φ q (s'.copies q) = φ q (s.copies q) := by
        rcases hdone with hdone | ⟨-, hdone⟩
        · rw [hdone]
        · rw [hdone, hφ]
      exact ⟨fun _ => .inr hself, .inr ⟨hmem, hself⟩⟩
    · rename_i e
      refine ⟨fun hq => (htodo hq).imp_left fun hq => ?_, hdone⟩
      exact (List.mem_cons.1 hq).resolve_left e
  · obtain ⟨-, -, hpages⟩ := h'
    obtain ⟨htodo, hdone⟩ := hpages q
    split
    · rename_i hq
      exact (htodo hq).resolve_left (List.not_mem_nil)
    · rename_i hq
      exact hdone.resolve_right fun hh => hq hh.1

/-- Work on pages while they are pinned. -/
theorem withPinned (h : s.Whole s₀ uses none) (pages : List PageId) {body : List (PageId × FrameId) → Action Unit}
    {ψ : PageId → Copies → Copies}
    (hbody : ∀ s₁, s₁.Whole s₀ (pinsOf (cachedOf s.pool pages) ++ uses) none → s.Proceeds s₁ →
      (body (cachedOf s.pool pages)).Ends s₁
        (fun _ s' => s'.Whole s₀ (pinsOf (cachedOf s.pool pages) ++ uses) none ∧ s₁.Proceeds s' ∧
          ∀ q, s'.copies q = ψ q (s₁.copies q)) fun _ _ => False) :
    (Action.withPinned pages body).Ends s
      (fun _ s' => s'.Whole s₀ uses none ∧ s.Proceeds s' ∧ ∀ q, s'.copies q = ψ q (s.copies q))
      fun _ _ => False := by
  obtain ⟨h₁, hstill⟩ := h.pinAll (cachedOf s.pool pages) fun x hx =>
    (h.balanced.pool.mapped _ _).1 (mem_cachedOf.1 hx).2
  unfold Action.withPinned
  rw [ends_bind, ends_get, ends_bind, ends_modifyPool, ends_andAlways]
  refine (hbody _ h₁ hstill.proceeds).mono (fun _ s' h' => ?_) fun _ _ h' => h'
  obtain ⟨h', hgone, hcopies⟩ := h'
  obtain ⟨h₂, hstill'⟩ := unpinAll _ h'
  refine ⟨h₂, hstill.proceeds.trans (hgone.trans hstill'.proceeds), fun q => ?_⟩
  rw [hstill'.copies, hcopies, hstill.copies]

/-- A loop over pages while they are pinned. -/
theorem forPinned {pages : List PageId} {body : PageId × FrameId → Action PUnit} {φ : Copies → Copies} {p : Pool}
    (hφ : ∀ x, φ (φ x) = φ x) (h : s.Whole s₀ (pinsOf (cachedOf p pages) ++ uses) none)
    (hpinned : ∀ x ∈ cachedOf p pages, (s.pool.frame x.2).page = some x.1)
    (hbody : ∀ (page : PageId) (f : FrameId) (s' : Store), s'.Whole s₀ (pinsOf (cachedOf p pages) ++ uses) none →
      (s'.pool.frame f).page = some page → (body (page, f)).Ends s'
        (fun _ s'' => s''.Whole s₀ (pinsOf (cachedOf p pages) ++ uses) none ∧ s'.Proceeds s'' ∧
          ∀ q, s''.copies q = if q = page then φ (s'.copies q) else s'.copies q) fun _ _ => False) :
    ((cachedOf p pages).forM body).Ends s
      (fun _ s' => s'.Whole s₀ (pinsOf (cachedOf p pages) ++ uses) none ∧ s.Proceeds s' ∧
        ∀ q, s'.copies q = if q ∈ (cachedOf p pages).map Prod.fst then φ (s.copies q) else s.copies q)
      fun _ _ => False :=
  h.forPages (p := Prod.fst) (φ := fun _ => φ) (fun _ => hφ) fun x hx s' h' hgone =>
    hbody x.1 x.2 s' h' ((hgone.frames x.2).trans (hpinned x hx))

/-! ## Single pages -/

/-- A page put back in its file. -/
theorem putBack (h : s.Whole s₀ uses none) {bytes : Bytes}
    (hthere : s.volume.HasPage s.catalog s.pool.config.pageSize page) (hl : bytes.length = s.pool.config.pageSize)
    {k : Unit → Action Unit} {good : Unit → Store → Prop} {bad : Error → Store → Prop}
    (hk : ∀ s', s'.Whole s₀ uses none → s.Proceeds s' →
      (∀ q, s'.copies q = if q = page then { s.copies q with file := bytes } else s.copies q) → (k ()).Ends s' good bad) :
    (resolve page.table >>= fun hd => writePage hd page bytes >>= k).Ends s good bad := by
  obtain ⟨hd, file, hres, hfile, htable, hsize⟩ := resolve_eq h.ground (h.ground.hasTable hthere)
  obtain ⟨v, hput, hgrown, h', hcopies⟩ := h.putPage_eq hfile htable (hl.trans hsize.symm)
  rw [ends_bind, ends_of_ok hres]
  unfold writePage
  rw [ends_bind, ends_bind, ends_of_ok (hput s.log s.trace), ends_note]
  refine hk _ (h'.congr (p := s.pool) rfl rfl rfl rfl rfl rfl rfl rfl s.log (.wrote page bytes :: s.trace))
    ⟨⟨⟨[.wrote page bytes], rfl, fun e he => ?_⟩, rfl, hgrown⟩, fun _ => rfl⟩ hcopies
  rw [List.mem_singleton.1 he]
  exact fun _ _ => rfl

/-- The change of a page is logged, and its before-image given up. -/
theorem logChange (h : s.Whole s₀ uses none) (hf : (s.pool.frame f).page = some page) :
    (Action.logChange t page f).Ends s
      (fun _ s' => s'.Whole s₀ uses none ∧ s.Proceeds s' ∧
        ∀ q, s'.copies q = if q = page then (s.copies q).take t else s.copies q)
      fun _ _ => False := by
  have hm := h.balanced.pool.mapped
  have hcached := Store.cached_eq hm hf
  unfold Action.logChange
  rw [ends_bind, ends_get]
  simp only [hf, if_true]
  cases hb : (s.pool.frame f).beforeOf? t with
  | none =>
    refine ⟨h, .refl s, fun q => ?_⟩
    split
    · rename_i e
      rw [e, Copies.take_of_none hcached hb]
    · rfl
  | some b =>
    show (Action.modifyPool _ >>= _).Ends s _ _
    rw [ends_bind, ends_modifyPool, ends_append]
    have h₁ := h.modifyFrame (c := fun x => { x with before := none }) (h.balanced.taken_of_page hf) (fun _ => rfl)
      (fun _ => rfl) fun hfits => ⟨hfits.1, nofun⟩
    refine ⟨h₁.congr (p := s.pool.modifyFrame f fun x => { x with before := none }) rfl rfl rfl rfl rfl rfl rfl rfl _ _,
      ⟨⟨⟨[_], rfl, fun e he => ?_⟩, rfl, .refl _⟩, fun g => ?_⟩, fun q => ?_⟩
    · rw [List.mem_singleton.1 he]
      exact fun _ _ => rfl
    · exact Pool.modifyFrame_keeps s.pool f g Frame.page fun _ => rfl
    · by_cases e : q = page
      · rw [if_pos e, e, Copies.take_of_some hcached hb]
        exact Store.copies_modifyFrame hm hf _
      · rw [if_neg e]
        exact Store.copies_modifyFrame_of_ne hm hf _ e

/-- A page gets its before-image back, if there is one of the transaction. -/
theorem restorePage (h : s.Whole s₀ uses none) (hf : (s.pool.frame f).page = some page) :
    (Action.restorePage t page f).Ends s
      (fun _ s' => s'.Whole s₀ uses none ∧ s.Proceeds s' ∧
        ∀ q, s'.copies q = if q = page then (s.copies q).restore t else s.copies q)
      fun _ _ => False := by
  have hm := h.balanced.pool.mapped
  have hcached := Store.cached_eq hm hf
  obtain ⟨hthere, hfits⟩ := (h.fit page).cached _ hcached
  unfold Action.restorePage
  rw [ends_bind, ends_get]
  simp only [hf, if_true]
  cases hb : (s.pool.frame f).beforeOf? t with
  | none =>
    refine ⟨h, .refl s, fun q => ?_⟩
    split
    · rename_i e
      rw [e, Copies.restore_of_none hcached hb]
    · rfl
  | some b =>
    obtain ⟨hbefore, -⟩ := beforeOf?_eq_some hb
    have hlength : b.bytes.length = s.pool.config.pageSize := hfits.2 b hbefore
    have hself := Copies.restore_of_some hcached hb
    let s₁ := s.modifyPool fun p => p.modifyFrame f fun x => x.restore b
    have h₁ : s₁.Whole s₀ uses none :=
      h.modifyFrame (h.balanced.taken_of_page hf) (fun _ => rfl) (fun _ => rfl) fun _ => ⟨hlength, nofun⟩
    have hgone : s.Proceeds s₁ :=
      ⟨⟨.refl _, rfl, .refl _⟩, fun g => Pool.modifyFrame_keeps s.pool f g Frame.page fun _ => rfl⟩
    have hcopies : ∀ q, s₁.copies q =
        if q = page then { s.copies q with cached := some ((s.pool.frame f).restore b).copy } else s.copies q := fun q => by
      by_cases e : q = page
      · rw [if_pos e, e]
        exact Store.copies_modifyFrame hm hf _
      · rw [if_neg e]
        exact Store.copies_modifyFrame_of_ne hm hf _ e
    show (Action.modifyPool _ >>= _).Ends s _ _
    rw [ends_bind, ends_modifyPool]
    cases hd : b.onDisk with
    | true =>
      rw [if_pos rfl]
      refine h₁.putBack hthere hlength fun s₂ h₂ hgone₂ hcopies₂ => ?_
      refine ⟨(h₂.count _).count _, ((hgone.trans hgone₂).count _).count _, fun q => (hcopies₂ q).trans ?_⟩
      rw [hcopies]
      by_cases e : q = page
      · rw [if_pos e, if_pos e, if_pos e, e, hself, hd]
        rfl
      · rw [if_neg e, if_neg e, if_neg e]
    | false =>
      rw [if_neg Bool.false_ne_true]
      refine ⟨h₁.count _, hgone.count _, fun q => (hcopies q).trans ?_⟩
      by_cases e : q = page
      · rw [if_pos e, if_pos e, e, hself, hd]
        rfl
      · rw [if_neg e, if_neg e]

/-- A before-image that was kept aside is put back in the file. -/
theorem restoreRetained (h : s.Whole s₀ uses none) {b : BeforeImage}
    (hthere : s.volume.HasPage s.catalog s.pool.config.pageSize page) (hl : b.bytes.length = s.pool.config.pageSize) :
    (Action.restoreRetained page b).Ends s
      (fun _ s' => s'.Whole s₀ uses none ∧ s.Proceeds s' ∧
        ∀ q, s'.copies q = if q = page then { s.copies q with file := b.bytes } else s.copies q)
      fun _ _ => False := by
  unfold Action.restoreRetained
  exact h.putBack hthere hl fun s' h' hgone hcopies => ⟨h'.count _, hgone.count _, hcopies⟩

/-! ## Commit and rollback -/

/-- What is done to those pages of a list that are cached is done to all of them, if it shows in cached pages only. -/
theorem ite_cachedOf {φ : Copies → Copies} (hφ : ∀ x : Copies, x.cached = none → φ x = x) (s : Store) (pages : List PageId)
    (q : PageId) :
    (if q ∈ (cachedOf s.pool pages).map Prod.fst then φ (s.copies q) else s.copies q) =
      if q ∈ pages then φ (s.copies q) else s.copies q := by
  have hmem : q ∈ (cachedOf s.pool pages).map Prod.fst ↔ q ∈ pages ∧ s.pool.find? q ≠ none := by
    rw [List.mem_map]
    constructor
    · rintro ⟨x, hx, rfl⟩
      obtain ⟨hp, hf⟩ := mem_cachedOf.1 hx
      exact ⟨hp, hf ▸ Option.some_ne_none _⟩
    · rintro ⟨hp, hf⟩
      obtain ⟨f, hf⟩ := Option.ne_none_iff_exists'.1 hf
      exact ⟨(q, f), mem_cachedOf.2 ⟨hp, hf⟩, rfl⟩
  cases hf : s.pool.find? q with
  | none =>
    rw [hφ _ (Option.map_eq_none_iff.2 hf), ite_self, ite_self]
  | some f =>
    have hiff : q ∈ (cachedOf s.pool pages).map Prod.fst ↔ q ∈ pages :=
      hmem.trans (and_iff_left (hf ▸ Option.some_ne_none f))
    simp only [hiff]

theorem forget (h : s.Whole s₀ uses none) (t : TxnId) : (s.modifyPool fun p => p.forget t).Whole s₀ uses none := by
  refine { h with
    balanced := ⟨h.balanced.pool.forget t, h.balanced.grown⟩
    fit := fun q => ?_ }
  rw [Store.copies_forget]
  exact ⟨(h.fit q).cached, fun b hb => (h.fit q).kept b (Option.filter_eq_some_iff.1 hb).1⟩

/-- Whatever is in log and trace. -/
theorem renote (h : s.Whole s₀ uses none) (log : Log) (trace : List Effect) :
    Store.Whole { s with log, trace } s₀ uses none :=
  h.congr (p := s.pool) rfl rfl rfl rfl rfl rfl rfl rfl log trace

end Store.Whole

/-! ### Before-images kept aside -/

namespace Store

/-- The file of a page gets the bytes of the before-image of a transaction that is kept aside, if there is one. -/
def putBack (s : Store) (t : TxnId) (q : PageId) (x : Copies) : Copies :=
  match (s.copies q).kept.filter fun b => b.owner = t with
  | none => x
  | some b => { x with file := b.bytes }

theorem putBack_putBack (s : Store) (t : TxnId) (q : PageId) (x : Copies) :
    s.putBack t q (s.putBack t q x) = s.putBack t q x := by
  unfold putBack
  split <;> rfl

theorem putBack_of_mem (s : Store) {x : PageId × BeforeImage} (hx : x ∈ s.pool.retainedOf t) (y : Copies) :
    s.putBack t x.1 y = { y with file := x.2.bytes } := by
  obtain ⟨hk, howner⟩ := mem_retainedOf.1 hx
  have hk : (s.copies x.1).kept = some x.2 := hk
  unfold putBack
  rw [hk, Option.filter_some, if_pos (decide_eq_true howner)]

/-- Before-images that are put back and forgotten are restored. -/
theorem putBack_forget (s : Store) (t : TxnId) (q : PageId) :
    (if q ∈ (s.pool.retainedOf t).map Prod.fst then s.putBack t q ((s.copies q).forget t) else (s.copies q).forget t) =
      (s.copies q).restoreKept t := by
  have hmem : q ∈ (s.pool.retainedOf t).map Prod.fst ↔ ∃ b, (s.copies q).kept = some b ∧ b.owner = t := by
    rw [List.mem_map]
    constructor
    · rintro ⟨x, hx, rfl⟩
      exact ⟨x.2, mem_retainedOf.1 hx⟩
    · rintro ⟨b, hb⟩
      exact ⟨(q, b), mem_retainedOf.2 hb, rfl⟩
  unfold putBack
  generalize s.copies q = x at hmem ⊢
  unfold Copies.restoreKept Copies.forget
  by_cases hq : ∃ b, x.kept = some b ∧ b.owner = t
  · rw [if_pos (hmem.2 hq)]
    obtain ⟨b, hk, howner⟩ := hq
    obtain ⟨hne, heq⟩ := Copies.Drafted.filter_eq (o := x.kept) (t := t) fun b' hb' => by
      cases hk.symm.trans hb'
      exact howner
    rw [hne, heq, hk]
  · rw [if_neg fun hin => hq (hmem.1 hin)]
    obtain ⟨hne, heq⟩ := Copies.Drafted.filter_ne (o := x.kept) (t := t) fun b hb howner => hq ⟨b, hb, howner⟩
    rw [hne, heq]

end Store

/-- A transaction has ended, and still has its locks. -/
structure Store.Closes (s s' : Store) (t : TxnId) (commits : Bool) (pages : List PageId) : Prop where
  trace : ∃ past, s'.trace = .completed t commits :: past ∧ Grown Effect.Quiet s.trace past
  locks : s'.pool.locks = s.pool.locks
  files : s.volume.Extends s'.volume
  frames : ∀ f, (s'.pool.frame f).page = (s.pool.frame f).page
  copies : ∀ q, s'.copies q = (s.copies q).complete t commits (q ∈ pages)

namespace Store.Whole

theorem commit (h : s.Whole s₀ uses none) (t : TxnId) (pages : List PageId) :
    (Action.commit t pages).Ends s (fun _ s' => s'.Whole s₀ uses none ∧ s.Closes s' t true pages) fun _ _ => False := by
  have hm := h.balanced.pool.mapped
  let pinned := cachedOf s.pool pages
  let ψ (q : PageId) (x : Copies) : Copies := if q ∈ pinned.map Prod.fst then (x.take t).flush else x
  unfold Action.commit
  rw [ends_bind]
  refine (h.withPinned pages (ψ := ψ) fun s₁ h₁ hgone₁ => ?_).mono (fun _ s₄ h₄ => ?_) fun _ _ h' => h'
  · have hpinned : ∀ x ∈ pinned, (s₁.pool.frame x.2).page = some x.1 := fun x hx =>
      (hgone₁.frames x.2).trans ((hm _ _).1 (mem_cachedOf.1 hx).2)
    rw [ends_bind]
    refine (h₁.forPinned (Copies.take_take t) hpinned fun page f s' h' hf => h'.logChange hf).mono (fun _ s₂ h₂ => ?_)
      fun _ _ h' => h'
    obtain ⟨h₂, hgone₂, hcopies₂⟩ := h₂
    rw [ends_bind, ends_append, ends_bind, ends_force]
    let s₃ : Store :=
      { s₂ with log := (s₂.log.append (.commit t)).force, trace := .forced :: .logged (.commit t) :: s₂.trace }
    have hgone₃ : s₂.Proceeds s₃ := by
      refine ⟨⟨⟨[.forced, .logged (.commit t)], rfl, fun e he => ?_⟩, rfl, .refl _⟩, fun _ => rfl⟩
      rcases List.mem_cons.1 he with rfl | he
      · exact fun _ _ => rfl
      · rw [List.mem_singleton.1 he]
        exact fun _ _ => rfl
    refine ((h₂.renote _ _ : s₃.Whole s₀ _ none).forPinned Copies.flush_flush (fun x hx => ?_)
      fun page f s' h' hf => ?_).mono (fun _ s' h' => ?_) fun _ _ h' => h'
    · exact (hgone₂.frames x.2).trans (hpinned x hx)
    · refine (h'.writeBack f page).mono (fun _ s'' h'' => ?_) fun _ _ h'' => h''
      obtain ⟨h'', hserves, hframes, hcopies⟩ := h''
      refine ⟨h'', ⟨⟨hserves.trace, hserves.locks, hserves.grown⟩, hframes⟩, fun q => ?_⟩
      rw [hcopies]
      simp only [hf, and_true]
    · obtain ⟨h', hgone', hcopies'⟩ := h'
      refine ⟨h', hgone₂.trans (hgone₃.trans hgone'), fun q => ?_⟩
      rw [hcopies', show s₃.copies q = s₂.copies q from rfl, hcopies₂]
      unfold ψ
      split <;> rfl
  · obtain ⟨h₄, hgone, hcopies⟩ := h₄
    rw [ends_bind, ends_modifyPool, ends_note]
    refine ⟨(h₄.forget t).renote _ _, ⟨_, rfl, hgone.trace⟩, hgone.locks, hgone.files, hgone.frames, fun q => ?_⟩
    refine (Store.copies_forget s₄ t q).trans ?_
    rw [hcopies]
    show Copies.forget t (ψ q (s.copies q)) = _
    unfold Copies.complete Copies.commit
    rw [if_pos rfl]
    refine congrArg _ (ite_cachedOf (φ := fun x => (x.take t).flush) (fun x hx => ?_) s pages q)
    rw [Copies.take_of_uncached t hx, Copies.flush, hx]

/-- The before-images of a transaction that were kept aside are put back. -/
theorem restoreAllRetained (h : s.Whole s₀ uses none) (t : TxnId) :
    ((s.pool.retainedOf t).forM fun (page, b) => Action.restoreRetained page b).Ends (s.modifyPool fun p => p.forget t)
      (fun _ s' => s'.Whole s₀ uses none ∧ s.Proceeds s' ∧ ∀ q, s'.copies q = (s.copies q).restoreKept t)
      fun _ _ => False := by
  have h₁ := h.forget t
  refine (h₁.forPages (p := Prod.fst) (φ := s.putBack t) (s.putBack_putBack t) fun x hx s' h' hgone => ?_).mono
    (fun _ s' h' => ?_) fun _ _ h' => h'
  · obtain ⟨hk, -⟩ := mem_retainedOf.1 hx
    obtain ⟨hthere, hl⟩ := (h.fit x.1).kept x.2 hk
    have hconfig : s'.pool.config = s.pool.config := h'.ground.config.trans h.ground.config.symm
    have hthere' : s'.volume.HasPage s'.catalog s'.pool.config.pageSize x.1 := by
      rw [h'.ground.catalog, ← h.ground.catalog, hconfig]
      exact hthere.extends hgone.files
    refine (h'.restoreRetained hthere' (hl.trans (congrArg _ hconfig).symm)).mono (fun _ s'' h'' => ?_) fun _ _ h'' => h''
    refine ⟨h''.1, h''.2.1, fun q => (h''.2.2 q).trans ?_⟩
    split
    · rename_i e
      rw [e, s.putBack_of_mem hx]
    · rfl
  · obtain ⟨h', hgone, hcopies⟩ := h'
    refine ⟨h', ⟨⟨hgone.trace, hgone.locks, hgone.files⟩, hgone.frames⟩, fun q => ?_⟩
    rw [hcopies, Store.copies_forget]
    exact s.putBack_forget t q

theorem rollback (h : s.Whole s₀ uses none) (t : TxnId) (pages : List PageId) :
    (Action.rollback t pages).Ends s (fun _ s' => s'.Whole s₀ uses none ∧ s.Closes s' t false pages) fun _ _ => False := by
  have hm := h.balanced.pool.mapped
  let pinned := cachedOf s.pool pages
  let ψ (q : PageId) (x : Copies) : Copies := if q ∈ pinned.map Prod.fst then x.restore t else x
  unfold Action.rollback
  rw [ends_bind, ends_note, ends_bind]
  refine ((h.renote s.log (.undoing t :: s.trace)).withPinned pages (ψ := ψ) fun s₁ h₁ hgone₁ => ?_).mono
    (fun _ s₂ h₂ => ?_) fun _ _ h' => h'
  · have hpinned : ∀ x ∈ pinned, (s₁.pool.frame x.2).page = some x.1 := fun x hx =>
      (hgone₁.frames x.2).trans ((hm _ _).1 (mem_cachedOf.1 hx).2)
    exact h₁.forPinned (Copies.restore_restore t) hpinned fun page f s' h' hf => h'.restorePage hf
  · obtain ⟨h₂, hgone, hcopies⟩ := h₂
    rw [ends_bind, ends_get, ends_bind, ends_modifyPool, ends_bind]
    refine (h₂.restoreAllRetained t).mono (fun _ s₃ h₃ => ?_) fun _ _ h' => h'
    obtain ⟨h₃, hgone', hcopies'⟩ := h₃
    rw [ends_bind, ends_append, ends_bind, ends_force, ends_note]
    have hall := hgone.trans hgone'
    refine ⟨h₃.renote _ _, ⟨_, rfl, ?_⟩, hall.locks, hall.files, hall.frames, fun q => (hcopies' q).trans ?_⟩
    · obtain ⟨more, htrace, hquiet⟩ := hall.trace
      refine ⟨.forced :: .logged (.abort t) :: (more ++ [.undoing t]), ?_, fun e he => ?_⟩
      · rw [htrace, List.cons_append, List.cons_append, List.append_assoc]
        rfl
      · rcases List.mem_cons.1 he with rfl | he
        · exact fun _ _ => rfl
        · rcases List.mem_cons.1 he with rfl | he
          · exact fun _ _ => rfl
          · rcases List.mem_append.1 he with he | he
            · exact hquiet e he
            · rw [List.mem_singleton.1 he]
              exact fun _ _ => rfl
    · rw [hcopies]
      unfold Copies.complete Copies.rollback
      rw [if_neg Bool.false_ne_true]
      exact congrArg _ (ite_cachedOf (fun _ => Copies.restore_of_uncached t) s pages q)

end Store.Whole

/-! ## Completion -/

/-- A transaction has ended, and has given up its locks. -/
structure Store.Settles (s s' : Store) (t : TxnId) (commits : Bool) : Prop where
  trace : ∃ past, s'.trace = .unlocked t :: .completed t commits :: past ∧ Grown Effect.Quiet s.trace past
  locks : s'.pool.locks = s.pool.locks.releaseAll t
  files : s.volume.Extends s'.volume
  frames : ∀ f, (s'.pool.frame f).page = (s.pool.frame f).page
  copies : ∀ q, s'.copies q = (s.copies q).complete t commits (q ∈ s.pool.locks.lockedBy t)

/-- A transaction ends. A commit is refused only to a doomed transaction, which is rolled back. -/
theorem Store.Whole.complete (h : s.Whole s₀ uses none) (haway : ∀ u ∈ uses, ∀ m, u.holder ≠ some (t, m))
    (wantsCommit : Bool) :
    (Action.complete t wantsCommit).Ends s
      (fun _ s' => s'.Whole s₀ uses none ∧ s.Settles s' t wantsCommit ∧ (wantsCommit = true → s.pool.isDoomed t = false))
      fun e s' => s'.Whole s₀ uses none ∧ s.Settles s' t false ∧
        e = .deadlock t ∧ wantsCommit = true ∧ s.pool.isDoomed t = true := by
  have h₁ : (s.modifyPool fun p => p.pardon t).Whole s₀ uses none :=
    h.congr (p := s.pool.pardon t) rfl rfl rfl rfl rfl rfl rfl rfl _ _
  have hend : ∀ (commits : Bool) {s' : Store}, s'.Whole s₀ uses none →
      (s.modifyPool fun p => p.pardon t).Closes s' t commits (s.pool.locks.lockedBy t) → ∀ g : Counters → Counters,
      ((Action.unlock t s').modifyPool fun p => p.count g).Whole s₀ uses none ∧
        s.Settles ((Action.unlock t s').modifyPool fun p => p.count g) t commits := by
    rintro commits s' h' ⟨⟨past, htrace, hquiet⟩, hlocks, hfiles, hframes, hcopies⟩ g
    have hmode := LockTable.mode?_releaseAll h'.locks t
    refine ⟨Store.Whole.count (s := Action.unlock t s') { h' with
      balanced := ⟨h'.balanced.pool.congr rfl rfl rfl rfl rfl rfl, h'.balanced.grown⟩
      locks := h'.locks.releaseAll t
      covered := fun u hu v m hv => ?_ } g, ⟨past, ?_, hquiet⟩, ?_, hfiles, hframes, hcopies⟩
    · have hne : v ≠ t := by
        rintro rfl
        exact haway u hu m hv
      show Covered ((s'.pool.locks.releaseAll t).mode? v u.page) m
      rw [hmode, if_neg hne]
      exact h'.covered u hu v m hv
    · show Effect.unlocked t :: s'.trace = _
      rw [htrace]
    · show s'.pool.locks.releaseAll t = _
      rw [hlocks]
      rfl
  unfold Action.complete
  rw [ends_bind, ends_get]
  dsimp only
  rw [ends_bind, ends_modifyPool]
  split
  · rename_i hc
    rw [Bool.and_eq_true, Bool.not_eq_true'] at hc
    rw [ends_bind, ends_andAlways]
    refine (h₁.commit t _).mono (fun _ s' h' => ?_) fun _ _ h' => h'.elim
    rw [ends_modifyPool]
    obtain ⟨h', hfin⟩ := hend true h'.1 h'.2 fun c => { c with commits := c.commits + 1 }
    rw [hc.1]
    exact ⟨h', hfin, fun _ => hc.2⟩
  · rename_i hc
    rw [ends_bind, ends_andAlways]
    refine (h₁.rollback t _).mono (fun _ s' h' => ?_) fun _ _ h' => h'.elim
    rw [ends_bind, ends_modifyPool]
    obtain ⟨h', hfin⟩ := hend false h'.1 h'.2 fun c => { c with aborts := c.aborts + 1 }
    cases wantsCommit with
    | true =>
      simp only [Bool.true_and, Bool.not_eq_true', Bool.not_eq_false] at hc
      exact ⟨h', hfin, rfl, rfl, hc⟩
    | false => exact ⟨h', hfin, nofun⟩

/-- Nobody works on the page of a transaction that has no guard. -/
theorem Store.Honors.not_worksOn {stray : PageId → TxnId → Prop} {d : PageId → Draft} (h : s.Honors s₀ stray d uses)
    (haway : ∀ u ∈ uses, ∀ m, u.holder ≠ some (t, m)) (ho : (d page).owner = some t) (v : TxnId) :
    ¬ s.WorksOn uses page v := fun hv => by
  obtain rfl : v = t := h.alone ((h.pages page).locked t ho) v (h.whole.write_of_worksOn hv)
  obtain ⟨u, hu, -, -, hh⟩ := hv
  exact haway u hu .write hh

/-- The end of a transaction keeps to the drafts. -/
theorem Store.Honors.complete {stray : PageId → TxnId → Prop} {d : PageId → Draft} (h : s.Honors s₀ stray d uses)
    (haway : ∀ u ∈ uses, ∀ m, u.holder ≠ some (t, m)) {commits : Bool} (hs : s.Settles s' t commits)
    (hw : s'.Whole s₀ uses none) : s'.Honors s₀ stray (fun page => (d page).complete t commits) uses := by
  refine ⟨hw, fun page => ?_⟩
  rw [hs.copies]
  have hworks : ∀ q v, s'.WorksOn uses q v ↔ s.WorksOn uses q v := worksOn_congr fun u _ => hs.frames u.frame
  refine Copies.Drafted.rebusy ((h.pages page).complete commits (fun ho => ?_) (h.not_worksOn haway) fun v hv hmode => ?_)
    (hworks page)
  · rw [LockTable.mem_lockedBy h.whole.locks, show s.pool.locks.mode? t page = _ from (h.pages page).locked t ho]
    exact Option.some_ne_none _
  · show s'.pool.locks.mode? v page = _
    rw [hs.locks, LockTable.mode?_releaseAll h.whole.locks, if_neg hv]
    exact hmode

end TupleStore
