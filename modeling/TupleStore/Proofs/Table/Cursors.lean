import TupleStore.Proofs.Table.FirstFit

/-!
# Calls of cursors

An open cursor has some tuples ahead of it: those that it holds, and those of the pages that it has not read yet. A call
answers by the first of these. A call that fails has passed over a page, whose tuples are not ahead any more.

While a cursor reads, pages make way for those that it asks for, and come back with other content if they have been
written past the cache. On the way a page shows what it showed before or what it shows afterwards (`Passes.between`), so
a page that holds the same tuples before and after a call has shown these to the call.

* `Store.live` : the tuples of a page, slot by slot;
* `CursorState.rest` : the tuples ahead, and `CursorState.Serves` : what a call comes to, told by them;
* `Settled.readPage`, `Regular.fill` : reading one page, and as many as it takes;
* `Store.Pulls` : what a call leaves of the store, and what it comes to;
* `Regular.hasNext`, `Regular.next` : the calls of an open cursor.
-/

namespace TupleStore

set_option autoImplicit false

open TupleStore.Action

/-- The tuples of a page of a table, slot by slot. -/
def Store.live (s : Store) (f : HeapFile) (n : Nat) : List Tuple :=
  (List.range (s.heap f n).layout.slots).filterMap (s.heap f n).tuple?

variable {α : Type} {s₀ s s₁ s' : Store} {uses : List Use} {f f' : HeapFile} {q : Cursor}

theorem Store.tuples_heap (s : Store) (f : HeapFile) (n : Nat) : (s.heap f n).tuples = s.live f n := HeapPage.tuples_eq _

/-- Which page is meant, and how it is read, is told by the id and the schema of the table. -/
theorem Store.live_congr (s : Store) (hid : f'.id = f.id) (hschema : f'.schema = f.schema) : s.live f' = s.live f := by
  unfold live heap
  rw [hid, hschema]

/-! ## Tuples ahead -/

namespace CursorState

variable {rows rows' : Nat → List Tuple} {c c' : CursorState}

/-- The tuples ahead of an open cursor, where the pages hold these. -/
def rest (rows : Nat → List Tuple) (c : CursorState) : List Tuple :=
  c.buffered ++ (List.range' c.next (c.limit - c.next)).flatMap rows

theorem rest_congr (h : ∀ n < c.limit, rows n = rows' n) : c.rest rows = c.rest rows' := by
  refine congrArg (c.buffered ++ ·) (List.flatMap_congr fun n hn => h n ?_)
  have := List.mem_range'_1.1 hn
  omega

/-- The tuples of the next page come first. -/
theorem rest_of_lt (hb : c.buffered = []) (hn : c.next < c.limit) :
    c.rest rows = rows c.next ++ rest rows { c with next := c.next + 1 } := by
  have hlength : c.limit - c.next = c.limit - (c.next + 1) + 1 := by omega
  rw [rest, hb, hlength, List.range'_succ, List.flatMap_cons]
  rfl

theorem rest_of_le (hb : c.buffered = []) (hn : c.limit ≤ c.next) : c.rest rows = [] := by
  rw [rest, hb, Nat.sub_eq_zero_of_le hn]
  rfl

/-- A cursor that has something ahead has a tuple, or a page to be read. -/
theorem isEmpty_rest (hc : c.buffered = [] → c.limit ≤ c.next) : c.buffered.isEmpty = (c.rest rows).isEmpty := by
  cases hb : c.buffered with
  | nil => rw [rest_of_le hb (hc hb)]
  | cons t ts =>
    rw [rest, hb]
    rfl

/-- What a call of an open cursor comes to. It answers with a value of the tuples ahead, and leaves some of them ahead. If
it fails, one page has been passed over. -/
inductive Serves (rows : Nat → List Tuple) (value : List Tuple → α) (left : List Tuple → List Tuple) (c c' : CursorState) :
    CursorAnswer α → Prop where
  | answers {x : α} (hx : x = value (c.rest rows)) (hn : c.next ≤ c'.next) (hrest : c'.rest rows = left (c.rest rows)) :
    Serves rows value left c c' (.answer x)
  | fails (e : Error) (hn : c.next < c'.next) (hle : c'.next ≤ c.limit)
    (hrest : c.rest rows = rows (c'.next - 1) ++ c'.rest rows) : Serves rows value left c c' (.failed e)
  /-- The page that is to be read next is in use. -/
  | blocks (hn : c.next ≤ c'.next) (hrest : c'.rest rows = c.rest rows) : Serves rows value left c c' .blocked

namespace Serves

variable {value : List Tuple → α} {left : List Tuple → List Tuple} {a : CursorAnswer α}

theorem congr (h : c.Serves rows value left c' a) (hlimit : c'.limit = c.limit) (hrows : ∀ n < c.limit, rows n = rows' n) :
    c.Serves rows' value left c' a := by
  have hc : c.rest rows = c.rest rows' := rest_congr hrows
  have hc' : c'.rest rows = c'.rest rows' := rest_congr (hlimit ▸ hrows)
  cases h with
  | answers hx hn hrest => exact .answers (hc ▸ hx) hn (hc' ▸ hc ▸ hrest)
  | fails e hn hle hrest =>
    refine .fails e hn hle ?_
    rw [← hc, ← hc', ← hrows (c'.next - 1) (by omega)]
    exact hrest
  | blocks hn hrest => exact .blocks hn (hc' ▸ hc ▸ hrest)

/-- A page has been read into an empty cursor, and the call has gone on from there. -/
theorem of_read (hb : c.buffered = []) (hn : c.next < c.limit)
    (h : Serves rows value left ⟨c.next + 1, c.limit, rows c.next⟩ c' a) : c.Serves rows value left c' a := by
  have hread : rest rows ⟨c.next + 1, c.limit, rows c.next⟩ = c.rest rows := by
    rw [rest_of_lt hb hn, rest, rest, hb]
    rfl
  cases h with
  | answers hx hn' hrest => exact .answers (hread ▸ hx) (Nat.le_of_succ_le hn') (hread ▸ hrest)
  | fails e hn' hle hrest => exact .fails e (Nat.lt_of_succ_lt hn') hle (hread ▸ hrest)
  | blocks hn' hrest => exact .blocks (Nat.le_of_succ_le hn') (hread ▸ hrest)

/-- A tuple that a cursor holds is the first one ahead, and can be taken. -/
theorem pop {t : Tuple} {ts : List Tuple} (h : c.Serves rows (fun ts => !ts.isEmpty) id c' (.answer true))
    (hb : c'.buffered = t :: ts) : c.Serves rows List.head? List.tail ⟨c'.next, c'.limit, ts⟩ (.answer (some t)) := by
  cases h with
  | answers _ hn hrest =>
    have hahead : c.rest rows = t :: rest rows ⟨c'.next, c'.limit, ts⟩ := by
      rw [← show c'.rest rows = c.rest rows from hrest, rest, hb]
      rfl
    exact .answers (by rw [hahead, List.head?_cons]) hn (by rw [hahead, List.tail_cons])

/-- Where there is no tuple ahead, none can be taken. -/
theorem drained (h : c.Serves rows (fun ts => !ts.isEmpty) id c' (.answer false)) :
    c.Serves rows List.head? List.tail c' (.answer none) := by
  cases h with
  | answers hx hn hrest =>
    have hahead : c.rest rows = [] := by simpa using hx
    rw [hahead] at hrest
    exact .answers (by rw [hahead, List.head?_nil]) hn (by rw [hahead, hrest, List.tail_nil, id])

end Serves

end CursorState

/-! ## Pages read -/

namespace Store

/-- A call that keeps what operations are made of keep leaves a regular store. -/
theorem Regular.keeps {x : Action α} (h : s₀.Regular (uses.map Use.frame) s)
    (hx : ∀ {marks : TxnId → PageId → Store → Prop} {I : List Use → Store → Prop},
      Custody .any s₀ (fun _ _ => True) marks I → I uses s → x.Ends s (fun _ s' => I uses s') fun _ s' => I uses s') :
    x.Ends s (fun _ s' => s₀.Regular (uses.map Use.frame) s') fun _ s' => s₀.Regular (uses.map Use.frame) s' := by
  have hbalanced := hx (custody_balanced s₀) h.balanced
  have hsized := hx (stewardship_sized s₀).toCustody h.sized
  have hturns := hx (stewardship_turns s₀).toCustody h.turns
  have hspanned := hx (stewardship_obeys Volume.Spanned.law s₀).toCustody h.spanned
  have hroomy := hx (stewardship_obeys Volume.Roomy.law s₀).toCustody h.roomy
  have hhoused := hx (stewardship_housed s₀).toCustody h.housed
  refine (hbalanced.and (hsized.and (hturns.and (hspanned.and (hroomy.and hhoused))))).mono (fun _ s' h' => ?_)
    fun _ s' h' => ?_ <;>
  exact ⟨h.origin, h'.1, h'.2.1, h'.2.2.1, h'.2.2.2.1, h'.2.2.2.2.1, h'.2.2.2.2.2⟩

variable {pins : List FrameId} {r : Request}

/-- Locks show in no page. -/
theorem Shifts.of_locks {locks : LockTable} (h : (s.modifyPool fun p => { p with locks }).Shifts pins s') :
    s.Shifts pins s' :=
  ⟨h.copies, h.anchors⟩

theorem Settled.lock_shifts (h : s.Settled pins) (r : Request) :
    r.lock.Ends s
      (fun p s' => match p with
        | .finished _ => False
        | .moved r' => ∃ frame, r' = r.goto (.fetched frame) ∧ s.Shifts pins s' ∧ s'.pool.find? r.page = some frame ∧
          s'.copies r.page = (s.copies r.page).load
        | .blocked _ => True)
      fun _ s' => s.Shifts pins s' := by
  unfold Request.lock
  rw [ends_bind, ends_get]
  cases s.pool.locks.acquire r.txn r.page r.mode with
  | mk answer locks =>
    have hlocks : s.Shifts pins (s.modifyPool fun p => { p with locks }) := .of_locks ((Idles.refl _).shifts pins)
    dsimp only
    rw [ends_bind, ends_modifyPool]
    cases answer with
    | granted =>
      show (Action.fetch r.page >>= _).Ends _ _ _
      rw [ends_bind]
      exact ((h.withLocks locks).fetch_shifts r.page).mono (fun frame s' h' => ⟨frame, rfl, h'.1.of_locks, h'.2⟩)
        fun _ s' h' => h'.of_locks
    | waits => exact trivial
    | refused =>
      refine hlocks.trans (Idles.shifts ?_ pins)
      exact ⟨rfl, rfl, rfl, rfl, List.suffix_rfl, rfl, fun _ => rfl, rfl⟩

/-- A request that is given its page at once is given what the cache or the file had of it. -/
theorem Settled.requestNow (h : s.Settled pins) (t : TxnId) (page : PageId) (mode : LockMode) :
    (Action.request t page mode).Ends s
      (fun g? s' => s.Shifts pins s' ∧ ∀ g, g? = some g →
        g.Answers ⟨t, page, mode, .fresh⟩ ∧ g.bytes s' = (s.copies page).shown)
      fun _ s' => s.Shifts pins s' := by
  have hsame : s.Shifts pins s := (Idles.refl s).shifts pins
  have hrun : (Request.run ⟨t, page, mode, .fresh⟩).Ends s
      (fun a s' => ∀ g, a = .done g → s.Shifts pins s' ∧ g.Answers ⟨t, page, mode, .fresh⟩ ∧
        g.bytes s' = (s.copies page).shown) fun _ s' => s.Shifts pins s' := by
    rw [Request.run, ends_advance_succ, Request.step.eq_1, ends_bind, ends_get]
    dsimp only
    split
    · exact hsame
    · refine (h.lock_shifts _).mono (fun p s₁ h₁ => ?_) fun _ _ h' => h'
      cases p with
      | finished g => exact h₁.elim
      | blocked r' => exact fun _ hg => by cases hg
      | moved r' =>
        obtain ⟨frame, rfl, hs, hfound, hloaded⟩ := h₁
        refine (ends_advance_fetched 2 rfl s₁).mono (fun a s' h' g hg => ?_) fun _ _ h' => h'.elim
        obtain ⟨hi, h'⟩ := h'
        subst hg
        have hanswers : g.Answers (Request.goto ⟨t, page, mode, .fresh⟩ (.fetched frame)) := h'.answers
        refine ⟨hs.trans (hi.shifts pins), ⟨hanswers.page, hanswers.txn, hanswers.mode, hanswers.unchanged⟩, ?_⟩
        calc g.bytes s' = (s'.pool.frame frame).bytes := by rw [Guard.bytes, h'.frame]
          _ = (s'.copies page).shown := (shown_of_find? ((hi.find?_eq page).trans hfound)).symm
          _ = (s.copies page).load.shown := by rw [hi.copies_eq, hloaded]
          _ = (s.copies page).shown := Copies.shown_load _
  unfold Action.request
  unfold Ends at hrun ⊢
  cases hr : Request.run ⟨t, page, mode, .fresh⟩ s with
  | error e s' =>
    rw [hr] at hrun
    simp only [hr]
    exact hrun
  | ok a s' =>
    rw [hr] at hrun
    simp only [hr]
    cases a with
    | done g => exact ⟨(hrun g rfl).1, fun _ hg => Option.some.inj hg ▸ (hrun g rfl).2⟩
    | waiting r => exact ⟨hsame, fun _ hg => by cases hg⟩

/-- A cursor that reads a page has its tuples, as they were. -/
theorem Settled.readPage (h : s.Settled pins) (f : HeapFile) (t : TxnId) (c : CursorState) :
    (c.readPage f t).Ends s
      (fun a s' => s.Shifts pins s' ∧ ∀ c', a = .answer c' → c' = ⟨c.next + 1, c.limit, s.live f c.next⟩)
      fun _ _ => False := by
  unfold CursorState.readPage
  rw [ends_bind, ends_attempt]
  refine (h.requestNow t ⟨f.id, c.next⟩ .read).mono (fun g? s₁ h₁ => ?_) fun _ _ h' => ⟨h', fun _ hc => by cases hc⟩
  obtain ⟨hs, hg⟩ := h₁
  cases g? with
  | none => exact ⟨hs, fun _ hc => by cases hc⟩
  | some g =>
    obtain ⟨hanswers, hbytes⟩ := hg g rfl
    have hpage : g.page = ⟨f.id, c.next⟩ := hanswers.page
    unfold CursorState.readUnder
    dsimp only
    rw [ends_bind, ends_bind, ends_get, ends_bind]
    refine ⟨hs.trans ((idles_release s₁ hanswers.unchanged).shifts pins), fun c' hc => ?_⟩
    cases hc
    rw [hpage, hbytes, ← s.tuples_heap]
    rfl

/-! ## Calls -/

/-- What calls have read on their way, told by what pages hold before and after. -/
theorem Shifts.live_eq (h : s.Shifts pins s₁) (h' : s₁.Shifts pins s') {n : Nat} (hsame : s'.live f n = s.live f n) :
    s₁.live f n = s.live f n := by
  unfold live heap at hsame ⊢
  rcases (h.copies ⟨f.id, n⟩).between (h'.copies _) with hshown | hshown
  · rw [hshown]
  · rw [hshown]
    exact hsame

/-- What a call of an open cursor leaves of the store, and what it comes to if the pages hold the same tuples as before. -/
structure Pulls (s₀ s : Store) (pins : List FrameId) (f : HeapFile) (value : List Tuple → α)
    (left : List Tuple → List Tuple) (c c' : CursorState) (a : CursorAnswer α) (s' : Store) : Prop where
  regular : s₀.Regular pins s'
  shifts : s.Shifts pins s'
  limit : c'.limit = c.limit
  serves : (∀ m < c.limit, s'.live f m = s.live f m) → c.Serves (s.live f) value left c' a

/-- What comes of reading pages until there is a tuple. The answer says whether there is one now. -/
structure Fills (s₀ s : Store) (pins : List FrameId) (f : HeapFile) (c c' : CursorState) (a : CursorAnswer Bool)
    (s' : Store) : Prop extends s₀.Pulls s pins f (fun ts => !ts.isEmpty) id c c' a s' where
  value : ∀ b, a = .answer b → b = !c'.buffered.isEmpty

variable {c : CursorState}

/-- There is a tuple, or there are no more pages. -/
theorem Regular.fills (h : s₀.Regular pins s) (hc : c.buffered = [] → c.limit ≤ c.next) :
    s₀.Fills s pins f c c (.answer !c.buffered.isEmpty) s where
  regular := h
  shifts := (Idles.refl s).shifts pins
  limit := rfl
  value _ hb := (CursorAnswer.answer.inj hb).symm
  serves _ := .answers (congrArg (!·) (CursorState.isEmpty_rest hc)) (Nat.le_refl _) rfl

/-- One page has been read, and the rest goes on in a store that shows the same tuples. -/
theorem Fills.of_read {c' : CursorState} {a : CursorAnswer Bool} (hs : s.Shifts pins s₁) (hb : c.buffered = [])
    (hn : c.next < c.limit) (h : s₀.Fills s₁ pins f ⟨c.next + 1, c.limit, s.live f c.next⟩ c' a s') :
    s₀.Fills s pins f c c' a s' where
  regular := h.regular
  shifts := hs.trans h.shifts
  limit := h.limit
  value := h.value
  serves hsame := by
    have hlive : ∀ m < c.limit, s₁.live f m = s.live f m := fun m hm => hs.live_eq h.shifts (hsame m hm)
    exact .of_read hb hn ((h.serves fun m hm => (hsame m hm).trans (hlive m hm).symm).congr h.limit hlive)

/-- Nobody sees another tuple for it, if files are in step with the cache. -/
theorem Shifts.live_of_inStep (h : s.Shifts pins s') (ha : s.pool.Accounted pins none) (hsync : s.InStep) :
    s'.live f = s.live f := by
  funext n
  unfold live heap
  rw [h.shown_eq ha hsync]

/-- Pages are read until there is a tuple. As many steps are enough as there are pages to be read. -/
theorem Regular.fill (f : HeapFile) (t : TxnId) (n : Nat) : ∀ {c : CursorState} {s : Store},
    s₀.Regular (uses.map Use.frame) s → c.limit - c.next ≤ n →
    (CursorState.fill f t n c).Ends s (fun r s' => s₀.Fills s (uses.map Use.frame) f c r.1 r.2 s') fun _ _ => False := by
  induction n with
  | zero => exact fun h hn => h.fills fun _ => Nat.le_of_sub_eq_zero (Nat.le_zero.1 hn)
  | succ n ih =>
    intro c s h hn
    unfold CursorState.fill
    split
    · rename_i hread
      rw [Bool.and_eq_true, List.isEmpty_iff, decide_eq_true_eq] at hread
      obtain ⟨hb, hlt⟩ := hread
      have hkeeps : (c.readPage f t).Ends s (fun _ s' => s₀.Regular (uses.map Use.frame) s')
          fun _ s' => s₀.Regular (uses.map Use.frame) s' :=
        h.keeps fun k hi => (k.readPage (fun h => by cases h) hi f t c).mono (fun _ _ h' => h') fun _ _ h' => h'.elim
      rw [ends_bind]
      refine ((h.settled.readPage f t c).and hkeeps).mono (fun a s₁ h₁ => ?_) fun _ _ h' => h'.1
      obtain ⟨⟨hs, hanswer⟩, hregular⟩ := h₁
      cases a with
      | answer c₁ =>
        obtain rfl := hanswer c₁ rfl
        exact (ih hregular (show c.limit - (c.next + 1) ≤ n by omega)).mono (fun _ _ h' => h'.of_read hs hb hlt)
          fun _ _ h' => h'
      | failed e =>
        exact ⟨⟨hregular, hs, rfl, fun _ => .fails e (Nat.lt_succ_self _) hlt (CursorState.rest_of_lt hb hlt)⟩,
          fun _ hv => by cases hv⟩
      | blocked => exact ⟨⟨hregular, hs, rfl, fun _ => .blocks (Nat.le_refl _) rfl⟩, fun _ hv => by cases hv⟩
    · rename_i hstay
      refine h.fills fun hb => Nat.le_of_not_lt fun hlt => hstay ?_
      rw [hb, decide_eq_true hlt]
      rfl

/-- An open cursor is asked whether there is another tuple. -/
theorem Regular.hasNext (h : s₀.Regular (uses.map Use.frame) s) (hf : s.file? q.handle = some f)
    (hc : q.state = some c) :
    q.hasNext.Ends s
      (fun r s' => ∃ c', r.1 = { q with state := some c' } ∧ s₀.Fills s (uses.map Use.frame) f c c' r.2 s')
      fun _ _ => False := by
  unfold Cursor.hasNext
  rw [hc]
  dsimp only
  rw [ends_bind, ends_of_ok (file_of_some hf), ends_bind]
  exact (h.fill f q.txn _ (Nat.le_refl _)).mono (fun r _ h' => ⟨r.1, rfl, h'⟩) fun _ _ h' => h'

/-- An open cursor is asked for its next tuple. -/
theorem Regular.next (h : s₀.Regular (uses.map Use.frame) s) (hf : s.file? q.handle = some f) (hc : q.state = some c) :
    q.next.Ends s
      (fun r s' => ∃ c', r.1 = { q with state := some c' } ∧
        s₀.Pulls s (uses.map Use.frame) f List.head? List.tail c c' r.2 s')
      fun _ _ => False := by
  unfold Cursor.next
  rw [ends_bind]
  refine (h.hasNext hf hc).mono (fun r s' h' => ?_) fun _ _ h' => h'
  obtain ⟨q', a⟩ := r
  obtain ⟨c', rfl, hfills⟩ := h'
  cases a with
  | answer b =>
    have hb : b = !c'.buffered.isEmpty := hfills.value b rfl
    cases hbuffer : c'.buffered with
    | nil =>
      obtain rfl : b = false := hb.trans (by rw [hbuffer]; rfl)
      exact ⟨c', rfl, { hfills.toPulls with serves := fun hsame => (hfills.serves hsame).drained }⟩
    | cons t ts =>
      obtain rfl : b = true := hb.trans (by rw [hbuffer]; rfl)
      have hpop : Cursor.pop { q with state := some c' } = (some t, { q with state := some ⟨c'.next, c'.limit, ts⟩ }) := by
        obtain ⟨n, limit, buffered⟩ := c'
        obtain rfl : buffered = t :: ts := hbuffer
        rfl
      dsimp only
      rw [hpop]
      exact ⟨_, rfl, { hfills.toPulls with serves := fun hsame => (hfills.serves hsame).pop hbuffer }⟩
  | failed e =>
    refine ⟨c', rfl, { hfills.toPulls with serves := fun hsame => ?_ }⟩
    cases hfills.serves hsame with
    | fails _ hn hle hrest => exact .fails e hn hle hrest
  | blocked =>
    refine ⟨c', rfl, { hfills.toPulls with serves := fun hsame => ?_ }⟩
    cases hfills.serves hsame with
    | blocks hn hrest => exact .blocks hn hrest

end Store

end TupleStore
