import TupleStore.Proofs.Attempts
import TupleStore.Proofs.Table.Cursors

/-!
# Cursors in a world

A cursor is opened, asked for tuples, opened anew and shut, while other things happen to the store. A call either leaves
the cursor shut, and then it does nothing else, or it works on a cursor that is open, and then it is told by the tuples
ahead what it comes to (`Tour.Comes`). In both cases the world is one that could have come to be without the cursor being
named, so that all that is known of worlds is known of it (`Tour.Grounded`).

* `Cursor.call` : a call of a cursor, and `CursorCall.opens`, `CursorCall.answer`, `CursorCall.left` : what it does to a
  list;
* `Tour` : a cursor in a world where anything can happen between its calls;
* `Tour.Steady` : the pages that the cursor goes through keep their tuples, which they always do in a call, if no page in
  the cache has been written past it (`Grounded.steady_call`).
-/

namespace TupleStore

set_option autoImplicit false

open TupleStore.Action

/-! ## Calls -/

deriving instance DecidableEq for CursorAnswer

/-- What can be asked of a cursor. -/
inductive CursorCall where
  | openFirst
  | rewind
  | close
  | hasNext
  | next
  /-- The next tuple, of a cursor that is opened if it is shut. -/
  | take
deriving DecidableEq

/-- What a cursor answers. -/
inductive CursorReply where
  | done
  | has (more : Bool)
  | gave (tuple : Option Tuple)
deriving DecidableEq

namespace CursorAnswer

def map {α β : Type} (g : α → β) : CursorAnswer α → CursorAnswer β
  | answer a => answer (g a)
  | failed e => failed e
  | blocked => blocked

/-- What a call comes to that has come back. -/
def back? {α : Type} : CursorAnswer α → Option (CursorAnswer α)
  | blocked => none
  | a => some a

end CursorAnswer

/-- The cursor after a call, and what the call comes to. -/
def Cursor.call (q : Cursor) : CursorCall → Action (Cursor × CursorAnswer CursorReply)
  | .openFirst => do
    let q ← q.openFirst
    pure (q, .answer .done)
  | .rewind => do
    let q ← q.rewind
    pure (q, .answer .done)
  | .close => pure (q.close, .answer .done)
  | .hasNext => do
    let r ← q.hasNext
    pure (r.1, r.2.map .has)
  | .next => do
    let r ← q.next
    pure (r.1, r.2.map .gave)
  | .take => do
    let r ← q.take
    pure (r.1, r.2.map .gave)

namespace CursorCall

/-- What is open once a call has opened or shut what is to be read, and before it reads. -/
def opens {σ : Type} (first : σ) (k : CursorCall) (now : Option σ) : Option σ :=
  match k with
  | openFirst => some first
  | rewind => some first
  | close => none
  | hasNext => now
  | next => now
  | take => some (now.getD first)

/-- What is said of the tuples ahead. -/
def value (k : CursorCall) (ahead : List Tuple) : CursorReply :=
  match k with
  | hasNext => .has !ahead.isEmpty
  | next => .gave ahead.head?
  | take => .gave ahead.head?
  | _ => .done

/-- The tuples that are still ahead then. -/
def left : CursorCall → List Tuple → List Tuple
  | next => List.tail
  | take => List.tail
  | _ => id

/-- What a call comes to that reads from a list, if the list is open. -/
def answer (k : CursorCall) : Option (List Tuple) → CursorAnswer CursorReply
  | some ahead => .answer (k.value ahead)
  | none => if k = close then .answer .done else .failed .iteratorNotOpen

theorem back?_answer (k : CursorCall) (ahead : Option (List Tuple)) : (k.answer ahead).back? = some (k.answer ahead) := by
  cases ahead with
  | none => cases k <;> rfl
  | some ahead => rfl

theorem map_opens {σ τ : Type} (g : σ → τ) (first : σ) (k : CursorCall) (now : Option σ) :
    (k.opens first now).map g = k.opens (g first) (now.map g) := by
  cases k <;> cases now <;> rfl

end CursorCall

/-! ### Calls of one cursor -/

variable {α β : Type} {s₀ s s' : Store} {uses : List Use} {pins : List FrameId} {f : HeapFile} {q : Cursor}
  {c c' : CursorState} {k : CursorCall}

theorem CursorState.Serves.map {rows : Nat → List Tuple} {value : List Tuple → α} {left : List Tuple → List Tuple}
    {a : CursorAnswer α} (h : c.Serves rows value left c' a) (g : α → β) :
    c.Serves rows (fun ts => g (value ts)) left c' (a.map g) := by
  cases h with
  | answers hx hn hrest => exact .answers (congrArg g hx) hn hrest
  | fails e hn hle hrest => exact .fails e hn hle hrest
  | blocks hn hrest => exact .blocks hn hrest

namespace Store

theorem Pulls.map {value : List Tuple → α} {left : List Tuple → List Tuple} {a : CursorAnswer α}
    (h : s₀.Pulls s pins f value left c c' a s') (g : α → β) :
    s₀.Pulls s pins f (fun ts => g (value ts)) left c c' (a.map g) s' where
  regular := h.regular
  shifts := h.shifts
  limit := h.limit
  serves hsame := (h.serves hsame).map g

/-- A call that leaves its cursor shut does nothing to the store. -/
theorem call_shut {first : CursorState} (s : Store) (hq : k.opens first q.state = none) :
    q.call k s = .ok ({ q with state := none }, k.answer none) s := by
  obtain ⟨hd, t, state⟩ := q
  cases k with
  | close => rfl
  | hasNext =>
    obtain rfl : state = none := hq
    rfl
  | next =>
    obtain rfl : state = none := hq
    rfl
  | _ => cases hq

theorem ends_openFirst (hf : s.file? q.handle = some f) {ok : Cursor → Store → Prop} {err : Error → Store → Prop} :
    q.openFirst.Ends s ok err ↔ ok { q with state := some ⟨0, f.pages.pageCount, []⟩ } s := by
  unfold Cursor.openFirst
  rw [ends_bind, ends_of_ok (file_of_some hf), ends_pure]

/-- A cursor that has just been opened, and has not been asked for anything. -/
theorem Regular.pulls (h : s₀.Regular pins s) (f : HeapFile) (c : CursorState) (x : α) :
    s₀.Pulls s pins f (fun _ => x) id c c (.answer x) s :=
  ⟨h, (Idles.refl s).shifts pins, rfl, fun _ => .answers rfl (Nat.le_refl _) rfl⟩

/-- A call that works on an open cursor. -/
theorem Regular.call_open (h : s₀.Regular (uses.map Use.frame) s) (hf : s.file? q.handle = some f)
    (hq : k.opens ⟨0, f.pages.pageCount, []⟩ q.state = some c) :
    (q.call k).Ends s
      (fun r s' => ∃ c', r.1 = { q with state := some c' } ∧
        s₀.Pulls s (uses.map Use.frame) f k.value k.left c c' r.2 s')
      fun _ _ => False := by
  unfold Cursor.call
  cases k with
  | openFirst =>
    cases hq
    dsimp only
    rw [ends_bind, ends_openFirst hf]
    exact ⟨_, rfl, h.pulls f _ _⟩
  | rewind =>
    cases hq
    dsimp only
    rw [ends_bind]
    show q.close.openFirst.Ends s _ _
    rw [ends_openFirst (q := q.close) hf]
    exact ⟨_, rfl, h.pulls f _ _⟩
  | close => cases hq
  | hasNext =>
    dsimp only
    rw [ends_bind]
    refine (h.hasNext hf hq).mono (fun r s' h' => ?_) fun _ _ h' => h'
    obtain ⟨c', hr, hfills⟩ := h'
    exact ⟨c', hr, hfills.toPulls.map _⟩
  | next =>
    dsimp only
    rw [ends_bind]
    refine (h.next hf hq).mono (fun r s' h' => ?_) fun _ _ h' => h'
    obtain ⟨c', hr, hpulls⟩ := h'
    exact ⟨c', hr, hpulls.map _⟩
  | take =>
    have hq : some (q.state.getD ⟨0, f.pages.pageCount, []⟩) = some c := hq
    have hnext : ∀ q' : Cursor, q'.handle = q.handle → q'.txn = q.txn → q'.state = some c →
        q'.next.Ends s (fun r s' => ∃ c', r.1 = { q with state := some c' } ∧
          s₀.Pulls s (uses.map Use.frame) f List.head? List.tail c c' r.2 s') fun _ _ => False := by
      rintro ⟨hd, t, state⟩ rfl rfl hstate
      exact h.next (q := ⟨q.handle, q.txn, state⟩) hf hstate
    have htake : q.take.Ends s (fun r s' => ∃ c', r.1 = { q with state := some c' } ∧
        s₀.Pulls s (uses.map Use.frame) f List.head? List.tail c c' r.2 s') fun _ _ => False := by
      unfold Cursor.take
      cases hstate : q.state with
      | none =>
        rw [hstate] at hq
        dsimp only
        rw [ends_bind, ends_openFirst hf]
        exact hnext _ rfl rfl hq
      | some c₀ =>
        rw [hstate] at hq
        exact hnext q rfl rfl (hstate.trans hq)
    dsimp only
    rw [ends_bind]
    refine htake.mono (fun r s' h' => ?_) fun _ _ h' => h'
    obtain ⟨c', hr, hpulls⟩ := h'
    exact ⟨c', hr, hpulls.map _⟩

end Store

/-! ### What they do to a world -/

namespace Cursor

theorem ends_hasNext_iterate (q : Cursor) (w : World) : q.hasNext.Ends w.store
    (fun _ s' => { w with store := s' } = w.handle (.op (.iterate q)))
    fun _ s' => { w with store := s' } = w.handle (.op (.iterate q)) := by
  unfold Action.Ends World.handle World.apply World.perform
  dsimp only
  cases q.hasNext w.store <;> rfl

theorem ends_next_iterate (q : Cursor) (w : World) : q.next.Ends w.store
    (fun _ s' => { w with store := s' } = w.handle (.op (.iterate q)))
    fun _ s' => { w with store := s' } = w.handle (.op (.iterate q)) := by
  unfold Cursor.next
  rw [ends_bind]
  refine (q.ends_hasNext_iterate w).mono (fun r s' h' => ?_) fun _ _ h' => h'
  obtain ⟨q', a⟩ := r
  cases a with
  | answer b => cases b <;> exact h'
  | failed e => exact h'
  | blocked => exact h'

/-- The store is as if the cursor had been asked for more, wherever it stood then. -/
theorem ends_call_events (q : Cursor) (w : World) (k : CursorCall) : (q.call k).Ends w.store
    (fun _ s' => ∃ events, { w with store := s' } = World.handleAll events w)
    fun _ s' => ∃ events, { w with store := s' } = World.handleAll events w := by
  have hopen : ∀ q : Cursor, q.openFirst.Ends w.store (fun _ s' => s' = w.store) fun _ s' => s' = w.store := fun q => by
    unfold openFirst
    rw [ends_bind]
    exact (ends_file q.handle).mono (fun _ _ h' => h'.1) fun _ _ h' => h'
  have hnext : ∀ q : Cursor, q.next.Ends w.store (fun _ s' => ∃ events, { w with store := s' } = World.handleAll events w)
      fun _ s' => ∃ events, { w with store := s' } = World.handleAll events w := fun q =>
    (q.ends_next_iterate w).mono (fun _ _ h' => ⟨[.op (.iterate q)], h'⟩) fun _ _ h' => ⟨[.op (.iterate q)], h'⟩
  unfold call
  cases k with
  | openFirst =>
    dsimp only
    rw [ends_bind]
    exact (hopen q).mono (fun _ _ h' => h' ▸ ⟨[], rfl⟩) fun _ _ h' => h' ▸ ⟨[], rfl⟩
  | rewind =>
    dsimp only
    rw [ends_bind]
    exact (hopen q.close).mono (fun _ _ h' => h' ▸ ⟨[], rfl⟩) fun _ _ h' => h' ▸ ⟨[], rfl⟩
  | close => exact ⟨[], rfl⟩
  | hasNext =>
    dsimp only
    rw [ends_bind]
    exact (q.ends_hasNext_iterate w).mono (fun _ _ h' => ⟨[.op (.iterate q)], h'⟩) fun _ _ h' => ⟨[.op (.iterate q)], h'⟩
  | next =>
    dsimp only
    rw [ends_bind]
    exact hnext q
  | take =>
    dsimp only
    rw [ends_bind]
    unfold take
    split
    · rw [ends_bind]
      refine (hopen q).mono (fun q' s' h' => ?_) fun _ _ h' => h' ▸ ⟨[], rfl⟩
      rw [h']
      exact hnext q'
    · exact hnext q

end Cursor

/-! ## Tours -/

/-- A cursor, and the world that it is in. -/
structure Tour where
  world : World
  cursor : Cursor

/-- What can happen to a cursor and its world. -/
inductive Move where
  | event (event : Event)
  | call (call : CursorCall)

namespace Tour

def move (t : Tour) : Move → Tour
  | .event e => { t with world := t.world.handle e }
  | .call k =>
    match t.cursor.call k t.world.store with
    | .ok r store => ⟨{ t.world with store }, r.1⟩
    | .error _ store => { t with world := { t.world with store } }

/-- What a call comes to that has come back. -/
def reply? (t : Tour) : Move → Option (CursorAnswer CursorReply)
  | .event _ => none
  | .call k =>
    match t.cursor.call k t.world.store with
    | .ok r _ => r.2.back?
    | .error e _ => some (.failed e)

/-- Moves one after the other, each with the tour on which it is made. -/
def steps : List Move → Tour → List (Tour × Move)
  | [], _ => []
  | m :: moves, t => (t, m) :: steps moves (t.move m)

/-! ### The table -/

/-- The table that the cursor is on. -/
def file? (t : Tour) : Option HeapFile := t.world.store.file? t.cursor.handle

/-- The tuples of a page of the table. -/
def live (t : Tour) (n : Nat) : List Tuple :=
  match t.file? with
  | none => []
  | some f => t.world.store.live f n

def pageCount (t : Tour) : Nat :=
  match t.file? with
  | none => 0
  | some f => f.pages.pageCount

/-- The tuples of the table, page by page. -/
def listing (t : Tour) : List Tuple := (List.range t.pageCount).flatMap t.live

/-- The pages that the cursor goes through, if it is open after a move, hold the same tuples as before. -/
def Steady (x : Tour × Move) : Prop :=
  ∀ c, (x.1.move x.2).cursor.state = some c → ∀ n < c.limit, (x.1.move x.2).live n = x.1.live n

/-! ### Where tours are -/

/-- The world has come to be from an empty cache, and there is a table. -/
structure Grounded (t : Tour) : Prop where
  comes : ∃ (s : Store) (events : List Event), s.Fresh ∧ t.world = World.handleAll events { store := s }
  file : t.file? ≠ none

variable {t t' : Tour} {moves : List Move}

/-- What comes of a call is what comes of a tour. -/
theorem of_call {P : Tour → Option (CursorAnswer CursorReply) → Prop}
    (h : (t.cursor.call k).Ends t.world.store (fun r s' => P ⟨{ t.world with store := s' }, r.1⟩ r.2.back?)
      fun e s' => P { t with world := { t.world with store := s' } } (some (.failed e))) :
    P (t.move (.call k)) (t.reply? (.call k)) := by
  unfold move reply?
  unfold Action.Ends at h
  dsimp only
  cases hr : t.cursor.call k t.world.store <;> rw [hr] at h <;> exact h

theorem live_of_file (hf : t.file? = some f) : t.live = t.world.store.live f := by
  funext n
  unfold live
  rw [hf]

theorem pageCount_of_file (hf : t.file? = some f) : t.pageCount = f.pages.pageCount := by
  unfold pageCount
  rw [hf]

/-- What a call comes to. Either it leaves the cursor shut, and does nothing else, or it works on an open cursor, and leaves
no page pinned. -/
inductive Comes (t : Tour) (k : CursorCall) (t' : Tour) : Option (CursorAnswer CursorReply) → Prop where
  | shut (hq : k.opens ⟨0, t.pageCount, []⟩ t.cursor.state = none)
    (ht : t' = { t with cursor := { t.cursor with state := none } }) : Comes t k t' (some (k.answer none))
  | reads {c c' : CursorState} {a : CursorAnswer CursorReply}
    (hq : k.opens ⟨0, t.pageCount, []⟩ t.cursor.state = some c) (hcursor : t'.cursor = { t.cursor with state := some c' })
    (hlimit : c'.limit = c.limit)
    (hpins : ∀ f, (t'.world.store.pool.frame f).pins = (t.world.store.pool.frame f).pins)
    (hsync : t.world.store.InStep → t'.live = t.live)
    (hserves : (∀ n < c.limit, t'.live n = t.live n) → c.Serves t.live k.value k.left c' a) : Comes t k t' a.back?

theorem Comes.handle {r : Option (CursorAnswer CursorReply)} (h : t.Comes k t' r) : t'.cursor.handle = t.cursor.handle := by
  cases h with
  | shut _ ht => rw [ht]
  | reads _ hcursor _ _ _ _ => rw [hcursor]

namespace Grounded

theorem regular (h : t.Grounded) :
    t.world.store.Regular ((t.world.uses t.world.store).map Use.frame) t.world.store := by
  obtain ⟨s, events, hs, hw⟩ := h.comes
  exact (hs.settled hw).2.regular

theorem comes_call (h : t.Grounded) (k : CursorCall) : t.Comes k (t.move (.call k)) (t.reply? (.call k)) := by
  obtain ⟨f, hf⟩ := Option.ne_none_iff_exists'.1 h.file
  refine of_call ?_
  cases hq : k.opens ⟨0, f.pages.pageCount, []⟩ t.cursor.state with
  | none =>
    rw [ends_of_ok (Store.call_shut _ hq), CursorCall.back?_answer]
    exact .shut (pageCount_of_file hf ▸ hq) rfl
  | some c =>
    refine (h.regular.call_open hf hq).mono (fun r s' h' => ?_) fun _ _ h' => h'.elim
    obtain ⟨c', hr, hpulls⟩ := h'
    obtain ⟨f', hf', hshape, -⟩ := hpulls.regular.balanced.grown.file hf
    simp only [Volume.shape, Prod.mk.injEq] at hshape
    let t' : Tour := ⟨{ t.world with store := s' }, { t.cursor with state := some c' }⟩
    have hlive : t'.live = s'.live f :=
      (live_of_file (t := t') hf').trans (s'.live_congr hshape.1 hshape.2.2.1)
    rw [hr]
    refine .reads (pageCount_of_file hf ▸ hq) rfl hpulls.limit (fun frame => ?_) (fun hsync => ?_) fun hsame => ?_
    · exact (hpulls.regular.balanced.pool.pinned frame).trans (h.regular.balanced.pool.pinned frame).symm
    · show t'.live = t.live
      rw [hlive, live_of_file hf]
      exact hpulls.shifts.live_of_inStep h.regular.balanced.pool hsync
    · change ∀ n < c.limit, t'.live n = t.live n at hsame
      rw [hlive, live_of_file hf] at hsame
      rw [live_of_file hf]
      exact hpulls.serves hsame

theorem handle_move (h : t.Grounded) (m : Move) : (t.move m).cursor.handle = t.cursor.handle := by
  cases m with
  | event e => rfl
  | call k => exact (h.comes_call k).handle

theorem move (h : t.Grounded) (m : Move) : (t.move m).Grounded := by
  obtain ⟨s, events, hs, hw⟩ := h.comes
  obtain ⟨more, hmore⟩ : ∃ more, (t.move m).world = World.handleAll more t.world := by
    cases m with
    | event e => exact ⟨[e], rfl⟩
    | call k =>
      refine of_call (P := fun t' _ => ∃ more, t'.world = World.handleAll more t.world) ?_
      exact (t.cursor.ends_call_events t.world k).mono (fun _ _ h' => h') fun _ _ h' => h'
  refine ⟨⟨s, events ++ more, hs, ?_⟩, ?_⟩
  · rw [hmore, hw]
    exact List.foldl_append.symm
  · obtain ⟨f, hf⟩ := Option.ne_none_iff_exists'.1 h.file
    have hkeeps := World.obeys_handleAll (Volume.KeepsTypes.law t.world.store.volume) more (hs.settled hw).1 (.refl _)
    obtain ⟨f', hf', -⟩ := hkeeps t.cursor.handle f hf
    rw [file?, h.handle_move, hmore]
    exact ne_of_eq_of_ne hf' (Option.some_ne_none f')

/-- Every call leaves every frame with its pins. -/
theorem pins_call (h : t.Grounded) (k : CursorCall) (frame : FrameId) :
    ((t.move (.call k)).world.store.pool.frame frame).pins = (t.world.store.pool.frame frame).pins := by
  have hcomes := h.comes_call k
  generalize t.reply? (.call k) = reply at hcomes
  cases hcomes with
  | shut _ ht => rw [ht]
  | reads _ _ _ hpins _ _ => exact hpins frame

/-- The calls themselves take no tuple away, and add none, as long as no page that is cached has been written past the
cache. -/
theorem steady_call (h : t.Grounded) (hsync : t.world.store.InStep) (k : CursorCall) :
    Steady (t, .call k) := by
  have hcomes := h.comes_call k
  generalize t.reply? (.call k) = reply at hcomes
  have hlive : (t.move (.call k)).live = t.live := by
    cases hcomes with
    | shut _ ht => rw [ht]; rfl
    | reads _ _ _ _ hkeeps _ => exact hkeeps hsync
  exact fun _ _ n _ => congrFun hlive n

theorem of_steps (h : t.Grounded) {x : Tour × Move} (hx : x ∈ steps moves t) : x.1.Grounded := by
  induction moves generalizing t with
  | nil => exact absurd hx List.not_mem_nil
  | cons m moves ih =>
    rcases List.mem_cons.1 hx with rfl | hx
    · exact h
    · exact ih (h.move m) hx

theorem move_openFirst (h : t.Grounded) :
    t.move (.call .openFirst) = { t with cursor := { t.cursor with state := some ⟨0, t.pageCount, []⟩ } } := by
  obtain ⟨f, hf⟩ := Option.ne_none_iff_exists'.1 h.file
  refine of_call (P := fun t' _ => t' = _) ?_
  unfold Cursor.call
  dsimp only
  rw [ends_bind, Store.ends_openFirst hf, pageCount_of_file hf]
  rfl

end Grounded

end Tour

end TupleStore
