import TupleStore.Proofs.Touring

/-!
# Tables read through a cursor

Where the pages that a cursor goes through keep their tuples, and all of them can be read, the cursor is a list that is
read from the front (`Tour.replies_eq`): that of the tuples that the table had in its pages when the cursor was opened.

A page that cannot be read is passed over, and its tuples are not given by later calls (`Tour.passes_over`). So a reading
that goes on after a failure gives all tuples only if there are none in the pages that were passed over.

* `Tour.expects` : what calls come to if they read from a list, and `Tour.unfailing` : the calls that can read their pages;
* `Tour.given`, `Tour.lost?` : the tuple that a call has given, and the page that it has passed over;
* `Tour.Advances`, `Tour.Passes` : what one move makes of the tuples ahead, and what many do.
-/

namespace TupleStore

set_option autoImplicit false

/-- Whether a move leaves an open cursor open, where it stands. -/
def Move.goesOn : Move → Bool
  | .event _ => true
  | .call .hasNext => true
  | .call .next => true
  | .call .take => true
  | _ => false

namespace Tour

variable {c c' : CursorState} {k : CursorCall} {t : Tour} {moves : List Move}

/-! ## Lists -/

/-- What the calls come to that have come back, one after the other. -/
def replies (moves : List Move) (t : Tour) : List (CursorAnswer CursorReply) :=
  (steps moves t).filterMap fun x => x.1.reply? x.2

/-- The move is no call that could not read a page. Only a cursor that is shut fails otherwise. -/
def unfailing (x : Tour × Move) : Bool :=
  match x.1.reply? x.2 with
  | some (.failed _) => (x.1.move x.2).cursor.state.isNone
  | _ => true

/-- What the calls come to that come back, if the cursor reads from a list. A call that has to wait has not come back, and is
made again. -/
def expects : List Move → Tour → Option (List Tuple) → List (CursorAnswer CursorReply)
  | [], _, _ => []
  | .event e :: moves, t, ahead => expects moves (t.move (.event e)) ahead
  | .call k :: moves, t, ahead =>
    let now := k.opens t.listing ahead
    match t.reply? (.call k) with
    | none => expects moves (t.move (.call k)) now
    | some _ => k.answer now :: expects moves (t.move (.call k)) (now.map k.left)

/-- The tuples ahead of the cursor, if it is open. -/
def ahead (t : Tour) : Option (List Tuple) := t.cursor.state.map fun c => c.rest t.live

/-- All tuples are ahead of a cursor that has just been opened. -/
theorem listing_eq (t : Tour) : t.listing = CursorState.rest t.live ⟨0, t.pageCount, []⟩ := by
  rw [listing, CursorState.rest, List.range_eq_range']
  rfl

theorem opens_ahead (t : Tour) (k : CursorCall) :
    k.opens t.listing t.ahead = (k.opens ⟨0, t.pageCount, []⟩ t.cursor.state).map fun c => c.rest t.live := by
  rw [CursorCall.map_opens, ahead, listing_eq]

/-- Where the pages keep their tuples, what is ahead is told by them as they were before. -/
theorem ahead_of_steady {m : Move} (hs : Steady (t, m)) :
    (t.move m).ahead = (t.move m).cursor.state.map fun c => c.rest t.live :=
  Option.map_congr fun _ hc => CursorState.rest_congr (hs _ hc)

/-- A call that comes back, and does not fail to read a page, does what it does to a list. One that has to wait leaves
ahead what was ahead. -/
theorem Grounded.answers (h : t.Grounded) (hs : Steady (t, .call k)) (hok : unfailing (t, .call k) = true) :
    t.reply? (.call k) = none ∧ (t.move (.call k)).ahead = k.opens t.listing t.ahead ∨
      t.reply? (.call k) = some (k.answer (k.opens t.listing t.ahead)) ∧
        (t.move (.call k)).ahead = (k.opens t.listing t.ahead).map k.left := by
  have hcomes := h.comes_call k
  have hahead := ahead_of_steady hs
  unfold unfailing at hok
  dsimp only at hok
  rw [opens_ahead]
  generalize t.reply? (.call k) = reply at hok hcomes
  cases hcomes with
  | shut hq ht =>
    rw [hq, hahead, ht]
    exact .inr ⟨rfl, rfl⟩
  | @reads c c' a hq hcursor hlimit _ _ hserves =>
    have hstate : (t.move (.call k)).cursor.state = some c' := congrArg Cursor.state hcursor
    rw [hstate] at hahead hok
    rw [hq, hahead, Option.map_some, Option.map_some, Option.map_some]
    cases hserves fun n hn => hs c' hstate n (hlimit ▸ hn) with
    | answers hx _ hrest =>
      subst hx
      exact .inr ⟨rfl, congrArg some hrest⟩
    | fails e _ _ _ => cases hok
    | blocks _ hrest => exact .inl ⟨rfl, congrArg some hrest⟩

theorem replies_cons (m : Move) (moves : List Move) (t : Tour) :
    replies (m :: moves) t = (t.reply? m).toList ++ replies moves (t.move m) := by
  unfold replies
  rw [steps, List.filterMap_cons]
  cases t.reply? m <;> rfl

/-- A cursor is as good as a list, wherever it stands. -/
theorem Grounded.replies_of_ahead (h : t.Grounded) (hs : ∀ x ∈ steps moves t, Steady x)
    (hok : ∀ x ∈ steps moves t, unfailing x = true) : replies moves t = expects moves t t.ahead := by
  induction moves generalizing t with
  | nil => rfl
  | cons m moves ih =>
    have hfirst := hs _ (List.mem_cons_self ..)
    have hrest := ih (h.move m) (fun x hx => hs x (List.mem_cons_of_mem _ hx)) fun x hx => hok x (List.mem_cons_of_mem _ hx)
    rw [replies_cons, hrest]
    cases m with
    | event e =>
      have hahead : (t.move (.event e)).ahead = t.ahead := ahead_of_steady hfirst
      rw [hahead]
      rfl
    | call k =>
      rcases h.answers hfirst (hok _ (List.mem_cons_self ..)) with ⟨hreply, hahead⟩ | ⟨hreply, hahead⟩ <;>
      · rw [expects, hreply, hahead]
        rfl

/-! ## Readings without failures -/

/-- Whatever has happened to a store with an empty cache, a cursor that is shut at first reads its table as a list is read
from its front, if the pages that it goes through keep their tuples while it is open, and none of them cannot be read.
What it reads are the tuples that the table has when it is opened, in the order of pages and slots. Between its calls it
keeps no page pinned. -/
theorem replies_eq {s : Store} {events : List Event} {w : World} (hs : s.Fresh)
    (hw : w = World.handleAll events { store := s }) {hd : HandleId} (hf : w.store.file? hd ≠ none) (txn : TxnId)
    (moves : List Move) (hsteady : ∀ x ∈ steps moves ⟨w, ⟨hd, txn, none⟩⟩, Steady x)
    (hok : ∀ x ∈ steps moves ⟨w, ⟨hd, txn, none⟩⟩, unfailing x = true) :
    replies moves ⟨w, ⟨hd, txn, none⟩⟩ = expects moves ⟨w, ⟨hd, txn, none⟩⟩ none ∧
      ∀ t k, (t, .call k) ∈ steps moves ⟨w, ⟨hd, txn, none⟩⟩ → ∀ frame,
        ((t.move (.call k)).world.store.pool.frame frame).pins = (t.world.store.pool.frame frame).pins := by
  have hgrounded : Grounded ⟨w, ⟨hd, txn, none⟩⟩ := ⟨⟨s, events, hs, hw⟩, hf⟩
  exact ⟨hgrounded.replies_of_ahead hsteady hok, fun t k hx => (hgrounded.of_steps hx).pins_call k⟩

/-- The tuples of the pages that the cursor goes through, if it is open after a move, before the move and after it. -/
def around (x : Tour × Move) : List (List Tuple) × List (List Tuple) :=
  match (x.1.move x.2).cursor.state with
  | none => ([], [])
  | some c => ((List.range c.limit).map x.1.live, (List.range c.limit).map (x.1.move x.2).live)

theorem steady_of_around (h : ∀ y ∈ (steps moves t).map around, y.1 = y.2) : ∀ x ∈ steps moves t, Steady x := by
  intro x hx c hc n hn
  have hsame := h _ (List.mem_map_of_mem hx)
  rw [around, hc] at hsame
  exact (List.map_inj_left.1 hsame n (List.mem_range.2 hn)).symm

/-- An integer that is the only one in its page. -/
def single (number : Nat) (value : Int32) : Tuple := (Tuple.ofInt value).place (some ⟨.ofT number, 0⟩)

/-- A table of integers with three pages, of which the second is empty. -/
def gappy : List Event :=
  [.create "t" ⟨[⟨.int, none⟩]⟩ 8, .register 0 "t", .op (.begin (.insert ⟨1⟩ 0 (.ofInt 7))), .op (.advance 0),
    .op (.advance 0), .op (.begin (.insert ⟨1⟩ 0 (.ofInt 8))), .op (.advance 0), .op (.advance 0), .op (.advance 0),
    .op (.begin (.insert ⟨1⟩ 0 (.ofInt 9))), .op (.advance 0), .op (.advance 0), .op (.advance 0), .op (.advance 0),
    .op (.begin (.delete ⟨1⟩ 0 (some ⟨.ofT 1, 0⟩))), .op (.advance 0), .op (.complete ⟨1⟩ true)]

/-- A cursor is asked before it is opened, twice for the same tuple, and once it is shut. While it is open, a page is
appended, and filled. -/
def wandering : List Move :=
  [.call .hasNext, .call .next, .call .openFirst, .call .hasNext, .call .hasNext, .call .next,
    .event (.op (.allocate 0)), .event (.op (.rewrite 0 (.ofT 3) [1, 0, 0, 0, 5, 0, 0, 0])), .call .next, .call .hasNext,
    .call .next, .call .close, .call .next, .call .take]

/-- The cursor gives the two integers that there are, says that there are no more, and does not see the page that was
appended. It is shut before and afterwards. Opened once more, it begins with the first integer again. -/
theorem replies_eq_wandering :
    Store.bare.Fresh ∧ (World.handleAll gappy { store := .bare }).store.file? 0 ≠ none ∧
      (∀ x ∈ steps wandering ⟨World.handleAll gappy { store := .bare }, ⟨0, ⟨2⟩, none⟩⟩, Steady x) ∧
      (∀ x ∈ steps wandering ⟨World.handleAll gappy { store := .bare }, ⟨0, ⟨2⟩, none⟩⟩, unfailing x = true) ∧
      replies wandering ⟨World.handleAll gappy { store := .bare }, ⟨0, ⟨2⟩, none⟩⟩ =
        [.failed .iteratorNotOpen, .failed .iteratorNotOpen, .answer .done, .answer (.has true), .answer (.has true),
          .answer (.gave (some (single 0 7))), .answer (.gave (some (single 2 9))), .answer (.has false),
          .answer (.gave none), .answer .done, .failed .iteratorNotOpen, .answer (.gave (some (single 0 7)))] ∧
      ∀ t k, (t, .call k) ∈ steps wandering ⟨World.handleAll gappy { store := .bare }, ⟨0, ⟨2⟩, none⟩⟩ → ∀ frame,
        ((t.move (.call k)).world.store.pool.frame frame).pins = (t.world.store.pool.frame frame).pins := by
  have hfile : (World.handleAll gappy { store := .bare }).store.file? 0 ≠ none := by
    have hsome : ((World.handleAll gappy { store := .bare }).store.file? 0).isSome = true := by decide +kernel
    exact Option.isSome_iff_ne_none.1 hsome
  have haround : (steps wandering ⟨World.handleAll gappy { store := .bare }, ⟨0, ⟨2⟩, none⟩⟩).map around =
      List.replicate 2 ([], []) ++ List.replicate 9 ([[single 0 7], [], [single 2 9]], [[single 0 7], [], [single 2 9]]) ++
        List.replicate 2 ([], []) ++
        [([[single 0 7], [], [single 2 9], [single 3 5]], [[single 0 7], [], [single 2 9], [single 3 5]])] := by
    decide +kernel
  have hok : (steps wandering ⟨World.handleAll gappy { store := .bare }, ⟨0, ⟨2⟩, none⟩⟩).all unfailing = true := by
    decide +kernel
  have hexpects : expects wandering ⟨World.handleAll gappy { store := .bare }, ⟨0, ⟨2⟩, none⟩⟩ none =
      [.failed .iteratorNotOpen, .failed .iteratorNotOpen, .answer .done, .answer (.has true), .answer (.has true),
        .answer (.gave (some (single 0 7))), .answer (.gave (some (single 2 9))), .answer (.has false),
        .answer (.gave none), .answer .done, .failed .iteratorNotOpen, .answer (.gave (some (single 0 7)))] := by
    decide +kernel
  -- from here on the world is not to be evaluated
  obtain ⟨w, hw⟩ : ∃ w, w = World.handleAll gappy { store := .bare } := ⟨_, rfl⟩
  rw [← hw] at hfile haround hok hexpects ⊢
  have hsteady := steady_of_around fun y hy => by
    rw [haround] at hy
    simp only [List.mem_append, List.mem_replicate, List.mem_singleton] at hy
    rcases hy with ((⟨-, rfl⟩ | ⟨-, rfl⟩) | ⟨-, rfl⟩) | rfl <;> rfl
  have hok := List.all_eq_true.1 hok
  obtain ⟨hreplies, hpins⟩ := replies_eq Store.Fresh.bare hw hfile ⟨2⟩ wandering hsteady hok
  exact ⟨.bare, hfile, hsteady, hok, hreplies.trans hexpects, hpins⟩

/-! ## Readings with failures -/

/-- The tuple that a call has given. -/
def given (x : Tour × Move) : List Tuple :=
  match x.1.reply? x.2 with
  | some (.answer (.gave (some tuple))) => [tuple]
  | _ => []

/-- The page that a call has passed over. -/
def lost? (x : Tour × Move) : Option Nat :=
  match x.1.reply? x.2 with
  | some (.failed _) => (x.1.move x.2).cursor.state.map fun c => c.next - 1
  | _ => none

/-- Whether a call has said that there are no more tuples. -/
def ends (x : Tour × Move) : Bool :=
  x.1.reply? x.2 = some (.answer (.has false)) || x.1.reply? x.2 = some (.answer (.gave none))

/-- What one move has made of the tuples ahead of an open cursor: one has been given, or those of a page have been passed
over. -/
structure Advances (rows : Nat → List Tuple) (c c' : CursorState) (x : Tour × Move) : Prop where
  state : (x.1.move x.2).cursor.state = some c'
  limit : c'.limit = c.limit
  onward : c.next ≤ c'.next
  tuples : c.rest rows = given x ++ (lost? x).toList.flatMap rows ++ c'.rest rows
  ended : ends x = true → c.rest rows = []
  fails : ∀ e, x.1.reply? x.2 = some (.failed e) → lost? x ≠ none
  bounds : ∀ n, lost? x = some n → c.next ≤ n ∧ n < c'.next ∧ n < c.limit

/-- What moves have made of the tuples that were ahead of an open cursor. In their order, each has been given, or was in a
page that was passed over, or is still ahead. -/
structure Passes (rows : Nat → List Tuple) (c : CursorState) (xs : List (Tour × Move)) (rest : List Tuple) : Prop where
  tuples : c.rest rows = (xs.flatMap fun x => given x ++ (lost? x).toList.flatMap rows) ++ rest
  ended : ∀ x ∈ xs, ends x = true → rest = []
  fails : ∀ x ∈ xs, ∀ e, x.1.reply? x.2 = some (.failed e) → lost? x ≠ none
  bounds : ∀ n ∈ xs.filterMap lost?, c.next ≤ n ∧ n < c.limit
  ordered : (xs.filterMap lost?).Pairwise (· < ·)

variable {rows : Nat → List Tuple} {m : Move} {x : Tour × Move} {xs : List (Tour × Move)} {rest : List Tuple}

/-- A move that does not lose a page. -/
theorem Advances.of_lost (hstate : (x.1.move x.2).cursor.state = some c') (hlimit : c'.limit = c.limit)
    (hn : c.next ≤ c'.next) (hreply : ∀ e, x.1.reply? x.2 ≠ some (.failed e)) (hrest : c.rest rows = given x ++ c'.rest rows)
    (hended : ends x = true → c.rest rows = []) : Advances rows c c' x := by
  have hlost : lost? x = none := by
    unfold lost?
    split
    · rename_i e he
      exact absurd he (hreply e)
    · rfl
  exact {
    state := hstate
    limit := hlimit
    onward := hn
    tuples := by rw [hlost, hrest, Option.toList_none, List.flatMap_nil, List.append_nil]
    ended := hended
    fails := fun e he => absurd he (hreply e)
    bounds := fun n h => nomatch hlost.symm.trans h }

/-- A move without an answer. -/
theorem Advances.of_none (hstate : (x.1.move x.2).cursor.state = some c') (hlimit : c'.limit = c.limit)
    (hn : c.next ≤ c'.next) (hreply : x.1.reply? x.2 = none) (hrest : c'.rest rows = c.rest rows) : Advances rows c c' x := by
  refine .of_lost hstate hlimit hn (fun e he => nomatch hreply.symm.trans he) ?_ fun he => ?_
  · rw [given, hreply, hrest]
    rfl
  · rw [ends, hreply] at he
    cases he

theorem Advances.of_has (hstate : (x.1.move x.2).cursor.state = some c') (hlimit : c'.limit = c.limit)
    (hn : c.next ≤ c'.next) (hreply : x.1.reply? x.2 = some (.answer (.has !(c.rest rows).isEmpty)))
    (hrest : c'.rest rows = c.rest rows) : Advances rows c c' x := by
  refine .of_lost hstate hlimit hn (fun e he => nomatch hreply.symm.trans he) ?_ fun he => ?_
  · rw [given, hreply, hrest]
    rfl
  · rw [ends, hreply] at he
    simpa using he

theorem Advances.of_gave (hstate : (x.1.move x.2).cursor.state = some c') (hlimit : c'.limit = c.limit)
    (hn : c.next ≤ c'.next) (hreply : x.1.reply? x.2 = some (.answer (.gave (c.rest rows).head?)))
    (hrest : c'.rest rows = (c.rest rows).tail) : Advances rows c c' x := by
  refine .of_lost hstate hlimit hn (fun e he => nomatch hreply.symm.trans he) ?_ fun he => ?_
  · rw [given, hreply, hrest]
    cases c.rest rows <;> rfl
  · rw [ends, hreply] at he
    simpa using he

/-- A call that fails has lost the page that it has passed over. -/
theorem Advances.of_failed {e : Error} (hstate : (x.1.move x.2).cursor.state = some c') (hlimit : c'.limit = c.limit)
    (hn : c.next < c'.next) (hle : c'.next ≤ c.limit) (hreply : x.1.reply? x.2 = some (.failed e))
    (hrest : c.rest rows = rows (c'.next - 1) ++ c'.rest rows) : Advances rows c c' x := by
  have hlost : lost? x = some (c'.next - 1) := by
    rw [lost?, hreply]
    dsimp only
    rw [hstate]
    rfl
  exact {
    state := hstate
    limit := hlimit
    onward := Nat.le_of_lt hn
    tuples := by
      rw [hlost, given, hreply, hrest, Option.toList_some, List.flatMap_singleton]
      rfl
    ended := fun he => by
      rw [ends, hreply] at he
      simp at he
    fails := fun _ _ => hlost ▸ Option.some_ne_none _
    bounds := fun n h => by
      obtain rfl := Option.some.inj (hlost.symm.trans h)
      omega }

/-- One move of an open cursor. -/
theorem Grounded.advances (h : t.Grounded) (hm : m.goesOn = true) (hs : Steady (t, m))
    (hc : t.cursor.state = some c) (hrows : ∀ n < c.limit, t.live n = rows n) :
    ∃ c', Advances rows c c' (t, m) ∧ ∀ n < c'.limit, (t.move m).live n = rows n := by
  cases m with
  | event e =>
    have hlive := hs c hc
    exact ⟨c, .of_none hc rfl (Nat.le_refl _) rfl rfl, fun n hn => (hlive n hn).trans (hrows n hn)⟩
  | call k =>
    have hcomes := h.comes_call k
    have hopens : k.opens ⟨0, t.pageCount, []⟩ t.cursor.state = some c := by
      rw [hc]
      cases k <;> first | rfl | cases hm
    generalize hreply : t.reply? (.call k) = reply at hcomes
    cases hcomes with
    | shut hq _ => exact nomatch hopens.symm.trans hq
    | @reads c₁ c' a hq hcursor hlimit _ _ hserves =>
      obtain rfl : c₁ = c := Option.some.inj (hq.symm.trans hopens)
      have hstate : (t.move (.call k)).cursor.state = some c' := congrArg Cursor.state hcursor
      have hlive := hs c' hstate
      have hserves := (hserves fun n hn => hlive n (hlimit ▸ hn)).congr hlimit hrows
      refine ⟨c', ?_, fun n hn => (hlive n hn).trans (hrows n (hlimit ▸ hn))⟩
      cases hserves with
      | answers hx hn hrest =>
        subst hx
        cases k with
        | hasNext => exact .of_has hstate hlimit hn hreply hrest
        | next => exact .of_gave hstate hlimit hn hreply hrest
        | take => exact .of_gave hstate hlimit hn hreply hrest
        | _ => cases hm
      | fails e hn hle hrest => exact .of_failed hstate hlimit hn hle hreply hrest
      | blocks hn hrest => exact .of_none hstate hlimit hn hreply hrest

theorem Passes.nil (rows : Nat → List Tuple) (c : CursorState) : Passes rows c [] (c.rest rows) :=
  ⟨rfl, fun _ hx => absurd hx List.not_mem_nil, fun _ hx => absurd hx List.not_mem_nil,
    fun _ hn => absurd hn List.not_mem_nil, .nil⟩

theorem Passes.cons (h : Advances rows c c' x) (h' : Passes rows c' xs rest) : Passes rows c (x :: xs) rest := by
  have hlost : ∀ n ∈ (x :: xs).filterMap lost?, lost? x = some n ∨ n ∈ xs.filterMap lost? := fun n hn => by
    obtain ⟨y, hy, hlost⟩ := List.mem_filterMap.1 hn
    rcases List.mem_cons.1 hy with rfl | hy
    · exact .inl hlost
    · exact .inr (List.mem_filterMap.2 ⟨y, hy, hlost⟩)
  exact {
    tuples := by
      rw [h.tuples, h'.tuples, List.flatMap_cons, List.append_assoc (given x ++ _)]
    ended := fun y hy he => by
      rcases List.mem_cons.1 hy with rfl | hy
      · have htuples := h.tuples
        rw [h.ended he, h'.tuples] at htuples
        have := (List.append_eq_nil_iff.1 htuples.symm).2
        exact (List.append_eq_nil_iff.1 this).2
      · exact h'.ended y hy he
    fails := fun y hy => by
      rcases List.mem_cons.1 hy with rfl | hy
      · exact h.fails
      · exact h'.fails y hy
    bounds := fun n hn => by
      rcases hlost n hn with hn | hn
      · obtain ⟨hle, -, hlt⟩ := h.bounds n hn
        exact ⟨hle, hlt⟩
      · obtain ⟨hle, hlt⟩ := h'.bounds n hn
        exact ⟨h.onward.trans hle, h.limit ▸ hlt⟩
    ordered := by
      cases hx : lost? x with
      | none =>
        rw [List.filterMap_cons_none hx]
        exact h'.ordered
      | some n =>
        rw [List.filterMap_cons_some hx]
        refine List.pairwise_cons.2 ⟨fun m hm => ?_, h'.ordered⟩
        exact (h.bounds n hx).2.1.trans_le (h'.bounds m hm).1 }

/-- A reading that goes on, wherever it stands. -/
theorem Grounded.passes (h : t.Grounded) (hm : ∀ m ∈ moves, m.goesOn = true) (hs : ∀ x ∈ steps moves t, Steady x)
    (hc : t.cursor.state = some c) (hrows : ∀ n < c.limit, t.live n = rows n) :
    ∃ rest, Passes rows c (steps moves t) rest := by
  induction moves generalizing t c with
  | nil => exact ⟨_, .nil rows c⟩
  | cons m moves ih =>
    obtain ⟨c', hadvances, hrows'⟩ := h.advances (hm m (List.mem_cons_self ..)) (hs _ (List.mem_cons_self ..)) hc hrows
    obtain ⟨rest, hpasses⟩ := ih (h.move m) (fun m hin => hm m (List.mem_cons_of_mem _ hin))
      (fun x hx => hs x (List.mem_cons_of_mem _ hx)) hadvances.state hrows'
    exact ⟨rest, hpasses.cons hadvances⟩

theorem length_flatMap_lost (rows : Nat → List Tuple) (xs : List (Tour × Move)) :
    (xs.flatMap fun x => given x ++ (lost? x).toList.flatMap rows).length =
      (xs.flatMap given).length + ((xs.filterMap lost?).flatMap rows).length := by
  induction xs with
  | nil => rfl
  | cons x xs ih =>
    rw [List.flatMap_cons, List.flatMap_cons, List.length_append, List.length_append, List.length_append, ih]
    cases hx : lost? x with
    | none =>
      rw [List.filterMap_cons_none hx, Option.toList_none, List.flatMap_nil, List.length_nil]
      omega
    | some n =>
      rw [List.filterMap_cons_some hx, Option.toList_some, List.flatMap_singleton, List.flatMap_cons, List.length_append]
      omega

/-- What is given is all that there is only if nothing was in the pages that were passed over. -/
theorem Passes.given_eq_iff (h : Passes rows c xs []) :
    xs.flatMap given = c.rest rows ↔ ∀ n ∈ xs.filterMap lost?, rows n = [] := by
  have htuples := h.tuples
  rw [List.append_nil] at htuples
  constructor
  · intro he
    have hlength := length_flatMap_lost rows xs
    rw [← htuples, ← he] at hlength
    exact List.flatMap_eq_nil_iff.1 (List.length_eq_zero_iff.1 (by omega))
  · intro hnil
    rw [htuples]
    refine List.flatMap_congr fun x hx => ?_
    cases hlost : lost? x with
    | none => exact (List.append_nil _).symm
    | some n => rw [Option.toList_some, List.flatMap_singleton, hnil n (List.mem_filterMap.2 ⟨x, hx, hlost⟩), List.append_nil]

/-- Whatever has happened to a store with an empty cache, a cursor that is opened, and asked for tuples until it says that
there are no more, gives all tuples that its table had, in the order of pages and slots, but for those in the pages at which
a call has failed, if the pages that it goes through keep their tuples. Every call that fails passes over one page more. So
the tuples are all there in the end only if no page that was passed over held one. -/
theorem passes_over {s : Store} {events : List Event} {w : World} (hs : s.Fresh)
    (hw : w = World.handleAll events { store := s }) {q : Cursor} (hf : w.store.file? q.handle ≠ none) {t : Tour}
    (ht : t = move ⟨w, q⟩ (.call .openFirst)) {moves : List Move} (hmoves : ∀ m ∈ moves, m.goesOn = true)
    (hsteady : ∀ x ∈ steps moves t, Steady x) :
    ∃ rest, t.listing = ((steps moves t).flatMap fun x => given x ++ (lost? x).toList.flatMap t.live) ++ rest ∧
      (∀ x ∈ steps moves t, ∀ e, x.1.reply? x.2 = some (.failed e) → ∃ n < t.pageCount, lost? x = some n) ∧
      ((steps moves t).filterMap lost?).Pairwise (· < ·) ∧
      ((∃ x ∈ steps moves t, ends x = true) → rest = [] ∧
        ((steps moves t).flatMap given = t.listing ↔ ∀ n ∈ (steps moves t).filterMap lost?, t.live n = [])) := by
  have hfirst : Grounded ⟨w, q⟩ := ⟨⟨s, events, hs, hw⟩, hf⟩
  have hgrounded : t.Grounded := ht ▸ hfirst.move _
  have hc : t.cursor.state = some ⟨0, t.pageCount, []⟩ := by
    rw [ht, hfirst.move_openFirst]
    rfl
  have hlisting : t.listing = CursorState.rest t.live ⟨0, t.pageCount, []⟩ := t.listing_eq
  obtain ⟨rest, h⟩ := hgrounded.passes hmoves hsteady hc fun _ _ => rfl
  refine ⟨rest, hlisting.trans h.tuples, fun x hx e he => ?_, h.ordered, fun hends => ?_⟩
  · obtain ⟨n, hn⟩ := Option.ne_none_iff_exists'.1 (h.fails x hx e he)
    exact ⟨n, (h.bounds n (List.mem_filterMap.2 ⟨x, hx, hn⟩)).2, hn⟩
  · obtain ⟨x, hx, he⟩ := hends
    obtain rfl := h.ended x hx he
    exact ⟨rfl, hlisting ▸ h.given_eq_iff⟩

/-- A cursor that has been opened, in a world that has come to be from an empty one. -/
def opened (events : List Event) (q : Cursor) : Tour := move ⟨World.handleAll events { store := .bare }, q⟩ (.call .openFirst)

/-- While another transaction has the only frame, the second page cannot be read. -/
def hindered : List Move :=
  [.call .next, .event (.op (.ask ⟨3⟩ (.ofT 2) .read)), .event (.op (.advance 0)), .event (.op (.advance 0)),
    .event (.op (.advance 0)), .call .next, .event (.op (.drop 0)), .call .next, .call .next]

/-- The page that is passed over is empty, and the two integers that there are have been given. -/
theorem passes_over_hindered :
    Store.bare.Fresh ∧ (World.handleAll gappy { store := .bare }).store.file? 0 ≠ none ∧
      (∀ m ∈ hindered, m.goesOn = true) ∧ (∀ x ∈ steps hindered (opened gappy ⟨0, ⟨2⟩, none⟩), Steady x) ∧
      replies hindered (opened gappy ⟨0, ⟨2⟩, none⟩) =
        [.answer (.gave (some (single 0 7))), .failed .noEvictablePage, .answer (.gave (some (single 2 9))),
          .answer (.gave none)] ∧
      (steps hindered (opened gappy ⟨0, ⟨2⟩, none⟩)).filterMap lost? = [1] ∧
      (steps hindered (opened gappy ⟨0, ⟨2⟩, none⟩)).flatMap given = (opened gappy ⟨0, ⟨2⟩, none⟩).listing := by
  have hfile : (World.handleAll gappy { store := .bare }).store.file? 0 ≠ none := by
    have hsome : ((World.handleAll gappy { store := .bare }).store.file? 0).isSome = true := by decide +kernel
    exact Option.isSome_iff_ne_none.1 hsome
  have haround : (steps hindered (opened gappy ⟨0, ⟨2⟩, none⟩)).map around =
      List.replicate 9 ([[single 0 7], [], [single 2 9]], [[single 0 7], [], [single 2 9]]) := by
    decide +kernel
  have hreplies : replies hindered (opened gappy ⟨0, ⟨2⟩, none⟩) =
      [.answer (.gave (some (single 0 7))), .failed .noEvictablePage, .answer (.gave (some (single 2 9))),
        .answer (.gave none)] := by
    decide +kernel
  have hends : (steps hindered (opened gappy ⟨0, ⟨2⟩, none⟩)).any ends = true := by decide +kernel
  have hlost : (steps hindered (opened gappy ⟨0, ⟨2⟩, none⟩)).filterMap lost? = [1] := by decide +kernel
  have hempty : (opened gappy ⟨0, ⟨2⟩, none⟩).live 1 = [] := by decide +kernel
  have hmoves : ∀ m ∈ hindered, m.goesOn = true := by decide
  -- from here on the world is not to be evaluated
  obtain ⟨w, hw⟩ : ∃ w, w = World.handleAll gappy { store := .bare } := ⟨_, rfl⟩
  have ht : opened gappy ⟨0, ⟨2⟩, none⟩ = move ⟨w, ⟨0, ⟨2⟩, none⟩⟩ (.call .openFirst) := by rw [hw]; rfl
  rw [← hw] at hfile ⊢
  have hsteady := steady_of_around fun y hy => by
    rw [haround] at hy
    rw [(List.mem_replicate.1 hy).2]
  obtain ⟨rest, -, -, -, hall⟩ := passes_over Store.Fresh.bare hw hfile ht hmoves hsteady
  refine ⟨.bare, hfile, hmoves, hsteady, hreplies, hlost, (hall (List.any_eq_true.1 hends)).2.2 fun n hn => ?_⟩
  rw [hlost, List.mem_singleton] at hn
  rw [hn, hempty]

/-- A table of integers with an integer in the first page, and a second page that is empty. Another transaction has the
second page in the only frame. -/
def barred : List Event :=
  [.create "t" ⟨[⟨.int, none⟩]⟩ 8, .register 0 "t", .op (.begin (.insert ⟨1⟩ 0 (.ofInt 7))), .op (.advance 0),
    .op (.advance 0), .op (.complete ⟨1⟩ true), .op (.allocate 0), .op (.ask ⟨2⟩ (.ofT 1) .read), .op (.advance 0),
    .op (.advance 0), .op (.advance 0)]

/-- A cursor that is asked for a tuple when there is no frame for its page, and is asked again once there is one, says that
there are none, and the integer is lost. One that is asked only when there is a frame gives the integer. -/
theorem passes_over_barred :
    (∀ x ∈ steps [.call .next, .event (.op (.drop 0)), .call .next] (opened barred ⟨0, ⟨3⟩, none⟩), Steady x) ∧
      replies [.call .next, .event (.op (.drop 0)), .call .next] (opened barred ⟨0, ⟨3⟩, none⟩) =
        [.failed .noEvictablePage, .answer (.gave none)] ∧
      replies [.event (.op (.drop 0)), .call .next, .call .next] (opened barred ⟨0, ⟨3⟩, none⟩) =
        [.answer (.gave (some (single 0 7))), .answer (.gave none)] := by
  have haround : (steps [.call .next, .event (.op (.drop 0)), .call .next] (opened barred ⟨0, ⟨3⟩, none⟩)).map around =
      List.replicate 3 ([[single 0 7], []], [[single 0 7], []]) := by
    decide +kernel
  refine ⟨steady_of_around fun y hy => ?_, by decide +kernel, by decide +kernel⟩
  rw [haround] at hy
  rw [(List.mem_replicate.1 hy).2]

end Tour

end TupleStore
