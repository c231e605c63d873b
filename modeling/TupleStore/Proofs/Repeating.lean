import TupleStore.Proofs.Events
import TupleStore.Proofs.Scanning

/-!
# Scans repeated

A transaction that scans a table twice finds the same rows, but for what it has changed itself and what lies in pages
that have come since. It may insert and delete while it scans, and have other scans on their way.

* `World.follow?` : where a task is after a run, so that a scan can be named by the operation that has begun it, and
  `World.scanned?` : what such a scan finds;
* `World.view_between` : a row in a page that a transaction has locked is the same later, unless the transaction has
  changed it;
* `Scan.Pages` : how a scan has come by what it has found. Each page was read at a moment of its own, and what was
  found there are the rows of that moment. Nothing that happens later matters to it (`Scan.Pages.snoc`), and the
  steps of the scan add moments (`Scan.Pages.reads`);
* `World.run_repeats` : the first scan and the second, page by page at their two moments.
-/

namespace TupleStore

set_option autoImplicit false

open TupleStore.Action

variable {s₀ s s' : Store} {w : World} {r : Rows} {op : Op} {ops : List Op} {t : TxnId} {rid : RecordId}
  {fields : List Field}

/-! ## Rows and changes -/

namespace Rows

variable {change : Change}

/-- A change leaves a row of a transaction as it is, unless it deletes the row. -/
theorem view_record_of_some (htakes : r.Takes change)
    (hends : ∀ u commits, change = .ended u commits → u ≠ t ∧ r.own u rid = none) (h : r.view t rid = some fields) :
    (r.record change).view t rid = some fields ∨ change = .deleted t rid := by
  cases change with
  | inserted u q values =>
    refine Or.inl ((view_put ..).trans ?_)
    by_cases he : t = u ∧ rid = q
    · obtain ⟨rfl, rfl⟩ := he
      rw [show r.view t rid = none from htakes] at h
      cases h
    · rw [if_neg he, h]
  | deleted u q =>
    by_cases he : t = u ∧ rid = q
    · obtain ⟨rfl, rfl⟩ := he
      exact Or.inr rfl
    · exact Or.inl ((view_put ..).trans ((if_neg he).trans h))
  | ended u commits =>
    obtain ⟨hu, hown⟩ := hends u commits rfl
    refine Or.inl ((view_complete_of_ne r (Ne.symm hu) commits rid).trans ?_)
    rw [committed_complete r hown]
    exact h

/-- A row that is there after a change was there before, unless the change inserts it. -/
theorem some_of_view_record (hends : ∀ u commits, change = .ended u commits → u ≠ t ∧ r.own u rid = none)
    (h : (r.record change).view t rid = some fields) :
    r.view t rid = some fields ∨ change = .inserted t rid fields := by
  cases change with
  | inserted u q values =>
    change (r.put u q (some values)).view t rid = some fields at h
    rw [view_put] at h
    split at h
    · rename_i he
      obtain ⟨rfl, rfl⟩ := he
      cases h
      exact Or.inr rfl
    · exact Or.inl h
  | deleted u q =>
    change (r.put u q none).view t rid = some fields at h
    rw [view_put] at h
    split at h
    · cases h
    · exact Or.inl h
  | ended u commits =>
    obtain ⟨hu, hown⟩ := hends u commits rfl
    change (r.complete u commits).view t rid = some fields at h
    rw [view_complete_of_ne r (Ne.symm hu), committed_complete r hown] at h
    exact Or.inl h

end Rows

/-! ## Runs -/

namespace World

theorem changes_append (ops ops' : List Op) (w : World) :
    changes (ops ++ ops') w = changes ops w ++ changes ops' (run ops w) := by
  induction ops generalizing w with
  | nil => rfl
  | cons op ops ih =>
    rw [List.cons_append, changes, ih, changes, List.append_assoc]
    rfl

/-- Only the end of a transaction is told as one. -/
theorem complete_of_change? {u : TxnId} {commits : Bool} (h : w.change? op = some (.ended u commits)) :
    ∃ wantsCommit, op = .complete u wantsCommit := by
  rcases asks_of_change? h with ha | ⟨c, -, ha⟩
  · cases op with
    | begin start =>
      cases start with
      | insert => exact absurd ha.choose_spec nofun
      | insertById => exact absurd ha.choose_spec nofun
      | delete => exact absurd ha.choose_spec.2 nofun
      | deleteById => exact absurd ha.choose_spec.2 nofun
      | _ => exact ha.elim
    | complete v wantsCommit =>
      refine ⟨wantsCommit, ?_⟩
      rcases ha with e | e <;> cases e <;> rfl
    | _ => exact ha.elim
  · cases c with
    | insert => exact absurd ha.choose_spec nofun
    | delete => exact absurd ha nofun
    | _ => exact ha.elim

/-- What is known of a world after a run, whatever transactions do while they scan. -/
structure Recounts (s₀ : Store) (ops : List Op) (w : World) : Prop where
  stands : w.Stands s₀
  fits : s₀.rows.Fits (changes ops { store := s₀ })
  tells : Tells s₀ (rows s₀ ops) w.store.trace
  plain : ∀ c, .call c ∈ w.tasks → c.Plain s₀

theorem Recounts.apply (h : Recounts s₀ ops (run ops { store := s₀ })) (hop : op.isPlain = true) :
    Recounts s₀ (ops ++ [op]) (run (ops ++ [op]) { store := s₀ }) := by
  obtain ⟨hfits, htells⟩ := made_apply h.stands h.plain h.tells hop
  rw [run_concat]
  refine ⟨h.stands.apply op, ?_, ?_, fun c hin => ?_⟩
  · rw [changes_concat]
    exact Rows.fits_append h.fits hfits
  · rw [rows_concat]
    exact htells
  · rcases (turn_apply h.stands h.plain h.tells op).call hin with ⟨j, hj, -⟩ | ⟨i, c', -, -, hgoes⟩ | ⟨start, rfl, hbegins⟩
    · exact h.plain c (List.mem_of_getElem? hj)
    · exact hgoes.plain
    · exact hbegins.plain h.stands.store hop

theorem recounts_run (o : Opening s₀) (hplain : ∀ op ∈ ops, op.isPlain = true) :
    Recounts s₀ ops (run ops { store := s₀ }) := by
  induction ops using List.reverseRecOn with
  | nil => exact ⟨stands_run o [], trivial, o.tells, fun c hin => (List.not_mem_nil hin).elim⟩
  | append_singleton ops op ih =>
    obtain ⟨hplain, hop⟩ := List.forall_mem_append.1 hplain
    exact (ih hplain).apply (hop op (List.mem_singleton_self op))

/-! ## Rows in locked pages -/

/-- While a transaction has a page locked and does not end, the page stays locked, and a row in it is as it was, but for
what the transaction has changed. -/
theorem view_between (o : Opening s₀) {between : List Op} (hplain : ∀ op ∈ ops ++ between, op.isPlain = true)
    (hlock : (run ops { store := s₀ }).store.pool.locks.mode? t rid.page ≠ none)
    (hends : ∀ wantsCommit, .complete t wantsCommit ∉ between) :
    (run (ops ++ between) { store := s₀ }).store.pool.locks.mode? t rid.page ≠ none ∧
    (∀ fields, (rows s₀ ops).view t rid = some fields → (rows s₀ (ops ++ between)).view t rid = some fields ∨
      .deleted t rid ∈ changes between (run ops { store := s₀ })) ∧
    ∀ fields, (rows s₀ (ops ++ between)).view t rid = some fields → (rows s₀ ops).view t rid = some fields ∨
      .inserted t rid fields ∈ changes between (run ops { store := s₀ }) := by
  induction between using List.reverseRecOn with
  | nil =>
    rw [List.append_nil]
    exact ⟨hlock, fun _ h => Or.inl h, fun _ h => Or.inl h⟩
  | append_singleton between op ih =>
    rw [← List.append_assoc] at hplain
    obtain ⟨hplain, hop⟩ := List.forall_mem_append.1 hplain
    obtain ⟨hlock, hkept, hcame⟩ := ih hplain fun wantsCommit hin => hends wantsCommit (List.mem_append_left _ hin)
    have h := recounts_run o hplain
    obtain ⟨hfits, -⟩ := made_apply h.stands h.plain h.tells (hop op (List.mem_singleton_self op))
    rw [← List.append_assoc, run_concat, rows_concat, changes_concat, ← run_append]
    generalize run (ops ++ between) { store := s₀ } = w at *
    have hnot : ∀ wantsCommit, op ≠ .complete t wantsCommit := fun wantsCommit e =>
      hends wantsCommit (e ▸ List.mem_append_right _ (List.mem_singleton_self op))
    refine ⟨?_, ?_⟩
    · obtain ⟨m, hm⟩ := Option.ne_none_iff_exists'.1 hlock
      rcases locks_apply h.stands op hm with ⟨m', hm', -⟩ | ⟨⟨wantsCommit, e⟩, -⟩
      · rw [hm']
        exact Option.some_ne_none m'
      · exact absurd e (hnot wantsCommit)
    · cases hchange : w.change? op with
      | none => exact ⟨fun fields hf => (hkept fields hf).imp_right fun hin => by simpa using hin,
          fun fields hf => (hcame fields hf).imp_right fun hin => by simpa using hin⟩
      | some change =>
        -- another transaction that ends has left nothing in the page
        have hother : ∀ u commits, change = .ended u commits → u ≠ t ∧ (rows s₀ (ops ++ between)).own u rid = none := by
          rintro u commits rfl
          obtain ⟨wantsCommit, rfl⟩ := complete_of_change? hchange
          have hu : u ≠ t := fun e => hnot wantsCommit (e ▸ rfl)
          exact ⟨hu, h.tells.spells.own u rid (h.stands.store.own_of_locked h.tells.inside hlock hu)⟩
        rw [hchange] at hfits
        refine ⟨fun fields hf => ?_, fun fields hf => ?_⟩
        · rcases hkept fields hf with hf | hin
          · exact (Rows.view_record_of_some hfits.1 hother hf).imp id fun e => by simp [e]
          · exact Or.inr (List.mem_append_left _ hin)
        · rcases Rows.some_of_view_record hother hf with hf | e
          · exact (hcame fields hf).imp id fun hin => List.mem_append_left _ hin
          · exact Or.inr (by simp [e])

end World

/-! ## Moments of a scan -/

/-- The tuples of a page as a transaction sees it are its rows in that page. -/
theorem Contents.Spells.mem_heap {c : Contents} {schema? : TableId → Option Schema} (h : c.Spells schema? r)
    {page : PageId} {schema : Schema} (hs : schema? page.table = some schema) :
    (∃ x ∈ (c.heap t schema page).tuples, x.recordId = some rid ∧ x.fields = fields) ↔
      rid.page = page ∧ r.view t rid = some fields := by
  constructor
  · rintro ⟨x, hx, hrid, hf⟩
    obtain ⟨slot, hslot⟩ := HeapPage.mem_tuples.1 hx
    obtain rfl : rid = ⟨page, slot⟩ := Option.some.inj (hrid.symm.trans (HeapPage.recordId_of_tuple? hslot))
    exact ⟨rfl, (h.view t _ schema hs).trans (HeapPage.row?_eq_some.2 ⟨x, hx, hrid, hf⟩)⟩
  · rintro ⟨rfl, hrow⟩
    exact HeapPage.row?_eq_some.1 ((h.view t rid schema hs).symm.trans hrow)

/-- What a step makes of a scan, by the store after it. -/
inductive Scan.Moves (s₀ s : Store) (c : Scan) : Scan → Prop where
  | waits (asking : RequestStage) : Moves s₀ s c { c with asking }
  | reads {file : HeapFile} {schema : Schema} (hfile : s₀.file? c.handle = some file)
      (hschema : s₀.schema? file.id = some schema) (hnext : c.state.next < c.state.limit)
      (hlock : s.pool.locks.mode? c.txn ⟨file.id, c.state.next⟩ ≠ none) :
      Moves s₀ s c (c.add ⟨c.state.next + 1, c.state.limit,
        ((contents s₀.onFile s.trace).heap c.txn schema ⟨file.id, c.state.next⟩).tuples⟩)

theorem Stands.scan_moves {uses : List Use} {c : Scan} (h : Stands s₀ ((Call.scan c).uses s₀ ++ uses) s)
    (hin : Inside s.trace) : (Call.scan c).step.Ends s
      (fun p s' => ∀ c', p = .moved c' ∨ p = .blocked c' → ∃ sc, c' = .scan sc ∧ c.Moves s₀ s' sc) fun _ _ => True := by
  unfold Call.step
  rw [ends_bind]
  refine (scan_reads h hin).mono (fun p s' h' => ?_) fun _ _ _ => trivial
  obtain ⟨hl, h'⟩ := h'
  intro c' hc'
  cases p with
  | finished ts => rcases hc' with e | e <;> cases e
  | moved sc =>
    obtain ⟨hn, file, schema, hf, hs, rfl, hlock⟩ := h'
    obtain rfl : _ = c' := by rcases hc' with e | e <;> cases e; rfl
    refine ⟨_, rfl, ?_⟩
    rw [← contents_of_looks _ hl.trace]
    exact .reads hf hs hn hlock
  | blocked sc =>
    obtain ⟨asking, rfl⟩ := h'
    obtain rfl : _ = c' := by rcases hc' with e | e <;> cases e; rfl
    exact ⟨_, rfl, .waits asking⟩

/-- What a scan has found in a page are the rows that its transaction sees there at a moment, when it has the page
locked. -/
structure Scan.Reads (s₀ : Store) (ops : List Op) (page : PageId) (c : Scan) : Prop where
  locked : (World.run ops { store := s₀ }).store.pool.locks.mode? c.txn page ≠ none
  rows : ∀ rid fields, rid.page = page → ((∃ x ∈ c.found, x.recordId = some rid ∧ x.fields = fields) ↔
    (World.rows s₀ ops).view c.txn rid = some fields)

/-- How a scan has come by what it has found, which was begun after some operations and has seen others since. -/
structure Scan.Pages (s₀ : Store) (before after : List Op) (file : HeapFile) (c : Scan) : Prop where
  begun : (World.run before { store := s₀ }).store.file? c.handle = some file
  limit : c.state.limit = file.pages.pageCount
  within : c.state.next ≤ c.state.limit
  placed : ∀ x ∈ c.found, ∃ rid, x.recordId = some rid ∧ rid.page.table = file.id ∧ rid.page.number < c.state.next
  moments : ∀ n < c.state.next, ∃ first, first <+: after ∧
    c.Reads s₀ (before ++ .begin (.scan c.txn c.handle) :: first) ⟨file.id, n⟩

namespace Scan.Pages

variable {before after : List Op} {file : HeapFile} {c c' : Scan}

/-- Whatever happens while the scan is on its way. -/
theorem snoc (h : c.Pages s₀ before after file) (op : Op) : c.Pages s₀ before (after ++ [op]) file := by
  refine ⟨h.begun, h.limit, h.within, h.placed, fun n hn => ?_⟩
  obtain ⟨first, hfirst, hreads⟩ := h.moments n hn
  exact ⟨first, hfirst.trans (List.prefix_append ..), hreads⟩

theorem waits (h : c.Pages s₀ before after file) (asking : RequestStage) :
    Scan.Pages s₀ before after file { c with asking } := by
  refine ⟨h.begun, h.limit, h.within, h.placed, fun n hn => ?_⟩
  obtain ⟨first, hfirst, hreads⟩ := h.moments n hn
  exact ⟨first, hfirst, hreads.locked, hreads.rows⟩

/-- The page that a scan reads now has this moment. -/
theorem reads (h : c.Pages s₀ before after file) {schema : Schema} (hschema : s₀.schema? file.id = some schema)
    (hnext : c.state.next < c.state.limit)
    (htells : Tells s₀ (World.rows s₀ (before ++ .begin (.scan c.txn c.handle) :: after)) s.trace)
    (hlock : (World.run (before ++ .begin (.scan c.txn c.handle) :: after) { store := s₀ }).store.pool.locks.mode? c.txn
      ⟨file.id, c.state.next⟩ ≠ none) :
    (c.add ⟨c.state.next + 1, c.state.limit, ((contents s₀.onFile s.trace).heap c.txn schema
      ⟨file.id, c.state.next⟩).tuples⟩).Pages s₀ before after file := by
  have hfound : ∀ rid fields, (∃ x ∈ c.found ++ ((contents s₀.onFile s.trace).heap c.txn schema
      ⟨file.id, c.state.next⟩).tuples, x.recordId = some rid ∧ x.fields = fields) ↔
        (∃ x ∈ c.found, x.recordId = some rid ∧ x.fields = fields) ∨ rid.page = ⟨file.id, c.state.next⟩ ∧
          (World.rows s₀ (before ++ .begin (.scan c.txn c.handle) :: after)).view c.txn rid = some fields := by
    intro rid fields
    rw [← htells.spells.mem_heap hschema]
    simp only [List.mem_append, or_and_right, exists_or]
  have hold : ∀ rid fields, (∃ x ∈ c.found, x.recordId = some rid ∧ x.fields = fields) →
      rid.page.number < c.state.next := by
    rintro rid fields ⟨x, hx, hrid, -⟩
    obtain ⟨rid', hrid', -, hlt⟩ := h.placed x hx
    cases hrid.symm.trans hrid'
    exact hlt
  refine ⟨h.begun, h.limit, hnext, fun x hx => ?_, fun n hn => ?_⟩
  · rcases List.mem_append.1 hx with hx | hx
    · obtain ⟨rid, hrid, htable, hlt⟩ := h.placed x hx
      exact ⟨rid, hrid, htable, Nat.lt_succ_of_lt hlt⟩
    · obtain ⟨slot, hslot⟩ := HeapPage.mem_tuples.1 hx
      exact ⟨_, HeapPage.recordId_of_tuple? hslot, rfl, Nat.lt_succ_self _⟩
  · rcases Nat.lt_succ_iff_lt_or_eq.1 hn with hlt | rfl
    · obtain ⟨first, hfirst, hreads⟩ := h.moments n hlt
      refine ⟨first, hfirst, hreads.locked, fun rid fields hpage => (hfound rid fields).trans ?_⟩
      refine (or_iff_left ?_).trans (hreads.rows rid fields hpage)
      rintro ⟨e, -⟩
      cases hpage.symm.trans e
      exact Nat.lt_irrefl _ hlt
    · refine ⟨after, List.prefix_rfl, hlock, fun rid fields hpage => (hfound rid fields).trans ?_⟩
      refine (or_iff_right fun hx => ?_).trans (and_iff_right hpage)
      have hlt := hold rid fields hx
      rw [hpage] at hlt
      exact Nat.lt_irrefl _ hlt

/-- A step of the scan, which has been taken. -/
theorem moves (h : c.Pages s₀ before after file) (o : Opening s₀)
    (htells : Tells s₀ (World.rows s₀ (before ++ .begin (.scan c.txn c.handle) :: after)) s.trace)
    (hs : (World.run (before ++ .begin (.scan c.txn c.handle) :: after) { store := s₀ }).store = s)
    (hmoves : c.Moves s₀ s c') : c'.Pages s₀ before after file := by
  cases hmoves with
  | waits asking => exact h.waits asking
  | reads hfile hschema hnext hlock =>
    have hid := (World.stands_run o before).store.table_eq h.begun hfile
    rw [← hid] at hschema hlock ⊢
    exact h.reads hschema hnext htells (hs ▸ hlock)

end Scan.Pages

/-! ## Scans by where they were begun -/

namespace World

variable {k j : Nat}

/-- Where a task is after something has happened, if it has not ended. New tasks come first. -/
def moves? (w : World) (op : Op) (k : Nat) : Option Nat :=
  if (w.apply op).tasks.length < w.tasks.length then
    match op with
    | .advance i => if k = i then none else some (if i < k then k - 1 else k)
    | _ => none
  else some (k + ((w.apply op).tasks.length - w.tasks.length))

/-- Where a task is after a run. -/
def follow? : List Op → World → Nat → Option Nat
  | [], _, k => some k
  | op :: ops, w, k => (w.moves? op k).bind (follow? ops (w.apply op))

/-- What a scan finds that is begun now, if its next step ends it after a run. -/
def scanned? (w : World) (t : TxnId) (handle : HandleId) (ops : List Op) : Option (List Tuple) :=
  let w := w.apply (.begin (.scan t handle))
  (follow? ops w 0).bind fun i => ((run ops w).found? i).map Prod.snd

theorem follow?_concat (ops : List Op) (op : Op) (w : World) (k : Nat) :
    follow? (ops ++ [op]) w k = (follow? ops w k).bind ((run ops w).moves? op) := by
  induction ops generalizing w k with
  | nil => simp [follow?, run]
  | cons op' ops ih =>
    rw [List.cons_append, follow?, follow?, Option.bind_assoc]
    exact congrArg _ (funext (ih (w.apply op')))

theorem moves?_eq_some {n : Nat} (h : (w.apply op).tasks.length = w.tasks.length + n) (k : Nat) :
    w.moves? op k = some (k + n) := by
  unfold moves?
  rw [if_neg (by omega)]
  exact congrArg some (by omega)

theorem moves?_advance {i : Nat} (hi : i < w.tasks.length)
    (h : (w.apply (.advance i)).tasks = w.tasks.eraseIdx i) (k : Nat) :
    w.moves? (.advance i) k = if k = i then none else some (if i < k then k - 1 else k) := by
  unfold moves?
  rw [if_pos (by rw [h, List.length_eraseIdx_of_lt hi]; omega)]

/-- A step of a scan that does not end it. -/
theorem scan_advance (h : Recounts s₀ ops w) {c : Scan} (hk : w.tasks[k]? = some (.call (.scan c)))
    (hj : w.moves? (.advance k) k = some j) :
    ∃ c', (w.advance k).tasks[j]? = some (.call (.scan c')) ∧ c.Moves s₀ (w.advance k).store c' := by
  have hmoves := (h.stands.store.perm (uses_task hk)).scan_moves h.tells.inside
  have hlt := (List.getElem?_eq_some_iff.1 hk).1
  have hgone : (w.advance k).tasks ≠ w.tasks.eraseIdx k := fun e => by
    rw [moves?_advance hlt e, if_pos rfl] at hj
    cases hj
  have hgoes : ∀ {c' s'}, w.advance k = { w with store := s', tasks := w.tasks.set k (.call c') } →
      (∃ sc, c' = .scan sc ∧ c.Moves s₀ s' sc) →
      ∃ c', (w.advance k).tasks[j]? = some (.call (.scan c')) ∧ c.Moves s₀ (w.advance k).store c' := by
    rintro c' s' e ⟨sc, rfl, hsc⟩
    have hsame : (w.apply (.advance k)).tasks.length = w.tasks.length + 0 := by
      rw [show w.apply (.advance k) = _ from e, List.length_set]
      rfl
    obtain rfl : k = j := Option.some.inj ((moves?_eq_some hsame k).symm.trans hj)
    rw [e]
    exact ⟨sc, List.getElem?_set_self hlt, hsc⟩
  have hadvance := advance_call hk
  split at hadvance
  · exact absurd (congrArg World.tasks hadvance) hgone
  · exact absurd (congrArg World.tasks hadvance) hgone
  · rename_i hstep
    exact hgoes hadvance ((ends_of_ok hstep).1 hmoves _ (Or.inl rfl))
  · rename_i hstep
    exact hgoes hadvance ((ends_of_ok hstep).1 hmoves _ (Or.inr rfl))

/-- What becomes of a scan that does not end. -/
theorem scan_apply (h : Recounts s₀ ops w) {c : Scan} (hk : w.tasks[k]? = some (.call (.scan c)))
    (hj : w.moves? op k = some j) : ∃ c', (w.apply op).tasks[j]? = some (.call (.scan c')) ∧
      (c' = c ∨ c.Moves s₀ (w.apply op).store c') := by
  by_cases hop : op = .advance k
  · subst hop
    obtain ⟨c', hc', hmoves⟩ := scan_advance h hk hj
    exact ⟨c', hc', Or.inr hmoves⟩
  refine ⟨c, ?_, Or.inl rfl⟩
  have hmore : ∀ new : List Task, (w.apply op).tasks = new ++ w.tasks →
      (w.apply op).tasks[j]? = some (.call (.scan c)) := fun new htasks => by
    rw [moves?_eq_some (n := new.length) (by rw [htasks, List.length_append, Nat.add_comm])] at hj
    cases hj
    rw [htasks, List.getElem?_append_right (Nat.le_add_left ..), Nat.add_sub_cancel]
    exact hk
  have hset : ∀ (i : Nat) (task : Task), op = .advance i → (w.apply op).tasks = w.tasks.set i task →
      (w.apply op).tasks[j]? = some (.call (.scan c)) := fun i task he htasks => by
    rw [moves?_eq_some (n := 0) (by rw [htasks, List.length_set]; rfl)] at hj
    cases hj
    have hne : i ≠ k := fun e => hop (he.trans (congrArg Op.advance e))
    rw [htasks, Nat.add_zero, List.getElem?_set_ne hne]
    exact hk
  cases turn_apply h.stands h.plain h.tells op with
  | stay _ htasks => exact hmore [] htasks
  | adds _ _ htasks => exact hmore [_] htasks
  | begins _ htasks => exact hmore [_] htasks
  | @ends i _ htasks =>
    by_cases hi : i < w.tasks.length
    · have hne : k ≠ i := fun e => hop (congrArg Op.advance e.symm)
      rw [moves?_advance hi htasks, if_neg hne] at hj
      cases hj
      rw [htasks]
      rcases Nat.lt_or_gt_of_ne hne with hlt | hlt
      · rw [if_neg (Nat.lt_asymm hlt), List.getElem?_eraseIdx_of_lt hlt]
        exact hk
      · rw [if_pos hlt, List.getElem?_eraseIdx_of_ge (Nat.le_sub_one_of_lt hlt), Nat.sub_add_cancel (Nat.one_le_of_lt hlt)]
        exact hk
    · exact hmore [] (htasks.trans (List.eraseIdx_of_length_le (Nat.le_of_not_lt hi)))
  | steps _ _ htasks => exact hset _ _ rfl htasks
  | other _ _ _ htasks => exact hset _ _ rfl htasks


variable {before after gap after' : List Op} {handle : HandleId} {file : HeapFile} {ts ts' : List Tuple}

theorem run_begin (before after : List Op) (w : World) :
    run (before ++ op :: after) w = run after ((run before w).apply op) := run_append before (op :: after) w

/-- A scan that was begun and has not ended. -/
theorem scan_run (o : Opening s₀)
    (hplain : ∀ op ∈ before ++ .begin (.scan t handle) :: after, op.isPlain = true)
    (hfile : (run before { store := s₀ }).store.file? handle = some file)
    (hj : follow? after ((run before { store := s₀ }).apply (.begin (.scan t handle))) 0 = some j) :
    ∃ c, (run (before ++ .begin (.scan t handle) :: after) { store := s₀ }).tasks[j]? = some (.call (.scan c)) ∧
      c.txn = t ∧ c.handle = handle ∧ c.Pages s₀ before after file := by
  induction after using List.reverseRecOn generalizing j with
  | nil =>
    obtain rfl : 0 = j := Option.some.inj hj
    refine ⟨{ txn := t, handle, state := ⟨0, file.pages.pageCount, []⟩ }, ?_, rfl, rfl, hfile, rfl, Nat.zero_le _,
      fun _ hx => absurd hx List.not_mem_nil, fun n hn => absurd hn (Nat.not_lt_zero n)⟩
    have hstart : Scan.start t handle (run before { store := s₀ }).store =
        .ok { txn := t, handle, state := ⟨0, file.pages.pageCount, []⟩ } (run before { store := s₀ }).store :=
      bind_of_ok (file_of_some hfile)
    have hcall : (Start.scan t handle).call (run before { store := s₀ }).store =
        .ok (.scan { txn := t, handle, state := ⟨0, file.pages.pageCount, []⟩ }) (run before { store := s₀ }).store :=
      bind_of_ok hstart
    rw [run_concat, World.apply, World.perform, hcall]
    rfl
  | append_singleton after op ih =>
    have hafter := (recounts_run o hplain).tells
    rw [← List.cons_append, ← List.append_assoc] at hplain
    obtain ⟨hplain, -⟩ := List.forall_mem_append.1 hplain
    rw [follow?_concat, ← run_begin] at hj
    obtain ⟨k, hk, hj⟩ := Option.bind_eq_some_iff.1 hj
    obtain ⟨c, hc, rfl, rfl, hpages⟩ := ih hplain hk
    have hrun : run (before ++ .begin (.scan c.txn c.handle) :: (after ++ [op])) { store := s₀ } =
        (run (before ++ .begin (.scan c.txn c.handle) :: after) { store := s₀ }).apply op := by
      rw [← run_concat, List.append_assoc, List.cons_append]
    obtain ⟨c', hc', hmoves⟩ := scan_apply (recounts_run o hplain) hc hj
    rw [← hrun] at hc' hmoves
    rcases hmoves with rfl | hmoves
    · exact ⟨c', hc', rfl, rfl, hpages.snoc op⟩
    · obtain ⟨htxn, hhandle⟩ : c'.txn = c.txn ∧ c'.handle = c.handle := by cases hmoves <;> exact ⟨rfl, rfl⟩
      exact ⟨c', hc', htxn, hhandle, (hpages.snoc op).moves o hafter rfl hmoves⟩

/-- A scan that ends is through with its pages. -/
theorem scanned_run (o : Opening s₀)
    (hplain : ∀ op ∈ before ++ .begin (.scan t handle) :: after, op.isPlain = true)
    (hfile : (run before { store := s₀ }).store.file? handle = some file)
    (h : scanned? (run before { store := s₀ }) t handle after = some ts) :
    ∃ c : Scan, ts = c.found ∧ c.state.next = file.pages.pageCount ∧ c.txn = t ∧ c.handle = handle ∧
      c.Pages s₀ before after file := by
  obtain ⟨j, hj, h⟩ := Option.bind_eq_some_iff.1 h
  obtain ⟨⟨c, ts⟩, hfound, rfl⟩ := Option.map_eq_some_iff.1 h
  obtain ⟨c', hc', htxn, hhandle, hpages⟩ := scan_run o hplain hfile hj
  rw [← run_begin] at hfound
  obtain ⟨hc, s, hend⟩ := of_found? hfound
  cases hc.symm.trans hc'
  have h := recounts_run o hplain
  obtain ⟨hts, hle⟩ := (ends_of_ok hend).1 (Stands.scan_finds (h.stands.store.perm (uses_task hc)) h.tells.inside) ts rfl
  exact ⟨c, hts, (Nat.le_antisymm hpages.within hle).trans hpages.limit, htxn, hhandle, hpages⟩

theorem balanced_run (o : Opening s₀) (ops : List Op) : (run ops { store := s₀ }).Balanced := by
  induction ops using List.reverseRecOn with
  | nil =>
    obtain ⟨config, hpool⟩ := o.pool
    have h := Balanced.ofConfig s₀ config
    rw [← hpool] at h
    exact h
  | append_singleton ops op ih =>
    rw [run_concat]
    exact ih.apply op

/-- No table loses pages. -/
theorem extends_run (o : Opening s₀) {more : List Op} (hplain : ∀ op ∈ ops ++ more, op.isPlain = true) :
    (run ops { store := s₀ }).store.volume.Extends (run (ops ++ more) { store := s₀ }).store.volume := by
  induction more using List.reverseRecOn with
  | nil =>
    rw [List.append_nil]
    exact .refl _
  | append_singleton more op ih =>
    rw [← List.append_assoc] at hplain
    obtain ⟨hplain, hop⟩ := List.forall_mem_append.1 hplain
    have hcached := cached_of_isPlain (hop op (List.mem_singleton_self op))
    rw [← List.append_assoc, run_concat]
    exact (ih hplain).trans (Kept.apply (stewardship_balanced _) (balanced_run o _) hcached (op.grips_any _ _)
      fun hd file hf => hf ▸ Option.some_ne_none file).store.grown

/-- A row in a page that two scans have read, by the two moments at which they have read it. -/
theorem found_again (o : Opening s₀) {file' : HeapFile} {c c' : Scan} (h : c.Pages s₀ before after file)
    (hgap : after <+: gap) (h' : c'.Pages s₀ (before ++ .begin (.scan c.txn c.handle) :: gap) after' file')
    (htxn : c'.txn = c.txn) (hhandle : c'.handle = c.handle) (htable : file'.id = file.id)
    (hplain : ∀ op ∈ before ++ .begin (.scan c.txn c.handle) :: (gap ++ .begin (.scan c.txn c.handle) :: after'),
      op.isPlain = true)
    (hends : ∀ wantsCommit, .complete c.txn wantsCommit ∉ gap ++ .begin (.scan c.txn c.handle) :: after')
    (hrid : rid.page.table = file.id) (hn : rid.page.number < c.state.next) (hn' : rid.page.number < c'.state.next)
    (fields : List Field) :
    ((∃ x ∈ c.found, x.recordId = some rid ∧ x.fields = fields) →
      (∃ y ∈ c'.found, y.recordId = some rid ∧ y.fields = fields) ∨
        .deleted c.txn rid ∈ changes (gap ++ .begin (.scan c.txn c.handle) :: after')
          (run (before ++ [.begin (.scan c.txn c.handle)]) { store := s₀ })) ∧
    ((∃ y ∈ c'.found, y.recordId = some rid ∧ y.fields = fields) →
      (∃ x ∈ c.found, x.recordId = some rid ∧ x.fields = fields) ∨
        .inserted c.txn rid fields ∈ changes (gap ++ .begin (.scan c.txn c.handle) :: after')
          (run (before ++ [.begin (.scan c.txn c.handle)]) { store := s₀ })) := by
  have hpage : rid.page = ⟨file.id, rid.page.number⟩ := by rw [← hrid]
  obtain ⟨first, hfirst, hreads⟩ := h.moments _ hn
  obtain ⟨first', ⟨rest', rfl⟩, hreads'⟩ := h'.moments _ hn'
  obtain ⟨rest, rfl⟩ := hfirst.trans hgap
  have hlock := hreads.locked
  have hrows := hreads.rows rid fields hpage
  have hrows' := hreads'.rows rid fields (by rw [htable, ← hpage])
  rw [htxn, hhandle] at hrows'
  generalize Op.begin (.scan c.txn c.handle) = b at *
  have hsplit : before ++ b :: (first ++ rest ++ b :: (first' ++ rest')) =
      before ++ b :: first ++ (rest ++ b :: first') ++ rest' := by simp
  have hlater : before ++ b :: (first ++ rest) ++ b :: first' = before ++ b :: first ++ (rest ++ b :: first') := by simp
  have hsince : first ++ rest ++ b :: (first' ++ rest') = first ++ ((rest ++ b :: first') ++ rest') := by simp
  rw [hsplit] at hplain
  rw [hlater] at hrows'
  rw [← hpage] at hlock
  have hbetween : ∀ wantsCommit, .complete c.txn wantsCommit ∉ rest ++ b :: first' := fun wantsCommit hin =>
    hends wantsCommit (hsince ▸ List.mem_append_right _ (List.mem_append_left _ hin))
  have hchanges : ∀ change ∈ changes (rest ++ b :: first') (run (before ++ b :: first) { store := s₀ }),
      change ∈ changes (first ++ rest ++ b :: (first' ++ rest')) (run (before ++ [b]) { store := s₀ }) := by
    intro change hin
    rw [hsince, changes_append, changes_append, ← run_append, List.append_assoc, List.singleton_append]
    exact List.mem_append_right _ (List.mem_append_left _ hin)
  obtain ⟨-, hkept, hcame⟩ := view_between o (List.forall_mem_append.1 hplain).1 hlock hbetween
  rw [hrows, hrows']
  exact ⟨fun hf => (hkept fields hf).imp_right (hchanges _), fun hf => (hcame fields hf).imp_right (hchanges _)⟩

/-- A transaction scans a table, and after the first scan it begins a second one, without having ended before that one
does. Every tuple that the first scan has found, the second one finds at the same place with the same values, unless the
transaction has deleted it meanwhile. Whatever else the second one finds the transaction has inserted meanwhile, or it
lies in a page that was not there when the first scan began. -/
theorem run_repeats (o : Opening s₀)
    (hplain : ∀ op ∈ before ++ .begin (.scan t handle) :: (gap ++ .begin (.scan t handle) :: after'), op.isPlain = true)
    (hends : ∀ wantsCommit, .complete t wantsCommit ∉ gap ++ .begin (.scan t handle) :: after')
    (hfile : (run before { store := s₀ }).store.file? handle = some file)
    (hfirst : scanned? (run before { store := s₀ }) t handle after = some ts) (hgap : after <+: gap)
    (hlast : scanned? (run (before ++ .begin (.scan t handle) :: gap) { store := s₀ }) t handle after' = some ts') :
    ∃ meanwhile, meanwhile = changes (gap ++ .begin (.scan t handle) :: after')
        (run (before ++ [.begin (.scan t handle)]) { store := s₀ }) ∧
      (∀ x ∈ ts, ∃ rid, x.recordId = some rid ∧
        ((∃ y ∈ ts', y.recordId = some rid ∧ y.fields = x.fields) ∨ .deleted t rid ∈ meanwhile)) ∧
      ∀ y ∈ ts', ∃ rid, y.recordId = some rid ∧
        ((∃ x ∈ ts, x.recordId = some rid ∧ x.fields = y.fields) ∨ .inserted t rid y.fields ∈ meanwhile ∨
          file.pages.pageCount ≤ rid.page.number) := by
  have hall : before ++ .begin (.scan t handle) :: (gap ++ .begin (.scan t handle) :: after') =
      before ++ .begin (.scan t handle) :: gap ++ .begin (.scan t handle) :: after' := by simp
  have hgapPlain : ∀ op ∈ before ++ .begin (.scan t handle) :: gap, op.isPlain = true :=
    (List.forall_mem_append.1 (hall ▸ hplain)).1
  have hafterPlain : ∀ op ∈ before ++ .begin (.scan t handle) :: after, op.isPlain = true := by
    obtain ⟨rest, rfl⟩ := hgap
    rw [← List.cons_append, ← List.append_assoc] at hgapPlain
    exact (List.forall_mem_append.1 hgapPlain).1
  -- both scans go through one table, which has lost no page
  obtain ⟨file', hfile', hshape, hcount⟩ := (extends_run o hgapPlain).file hfile
  have htable : file'.id = file.id := congrArg Prod.fst hshape
  obtain ⟨c, rfl, hnext, rfl, rfl, h⟩ := scanned_run o hafterPlain hfile hfirst
  obtain ⟨c', rfl, hnext', htxn, hhandle, h'⟩ := scanned_run o (hall ▸ hplain) hfile' hlast
  refine ⟨_, rfl, fun x hx => ?_, fun y hy => ?_⟩
  · obtain ⟨rid, hrid, hin, hlt⟩ := h.placed x hx
    exact ⟨rid, hrid, (found_again o h hgap h' htxn hhandle htable hplain hends hin hlt (by omega) x.fields).1
      ⟨x, hx, hrid, rfl⟩⟩
  · obtain ⟨rid, hrid, hin, hlt⟩ := h'.placed y hy
    refine ⟨rid, hrid, ?_⟩
    by_cases hn : rid.page.number < c.state.next
    · exact ((found_again o h hgap h' htxn hhandle htable hplain hends (hin.trans htable) hn hlt y.fields).2
        ⟨y, hy, hrid, rfl⟩).imp_right Or.inl
    · exact Or.inr (Or.inr (by omega))

end World

/-- A transaction inserts two tuples, and another one begins to scan the table. -/
def Op.filled : List Op :=
  [.begin (.insert ⟨1⟩ 0 (.ofInt 5)), .advance 0, .advance 0, .begin (.insert ⟨1⟩ 0 (.ofInt 6)), .advance 0, .advance 0,
    .advance 0, .complete ⟨1⟩ true, .begin (.scan ⟨2⟩ 0), .advance 0]

/-- A scan that has just been begun goes through both pages and ends. A third transaction finds the pages full and appends
one for its tuple, and the one that scans deletes a tuple. -/
def Op.passing : List Op :=
  [.advance 0, .advance 0, .advance 0, .begin (.insert ⟨3⟩ 0 (.ofInt 9)), .advance 0, .advance 0, .advance 0, .advance 0,
    .complete ⟨3⟩ true, .begin (.delete ⟨2⟩ 0 (some ⟨.ofT 0, 0⟩)), .advance 0]

namespace World

/-- While one scan of the transaction is on its way, it scans the table twice. Of two tuples one is deleted, the other is
found again, and one more lies in the new page. -/
theorem run_repeats_deleted : Opening .ofInts ∧
    (∀ op ∈ Op.filled ++ .begin (.scan ⟨2⟩ 0) :: (Op.passing ++ .begin (.scan ⟨2⟩ 0) :: List.replicate 3 (.advance 0)),
      op.isPlain = true) ∧
    (∀ wantsCommit, .complete ⟨2⟩ wantsCommit ∉ Op.passing ++ .begin (.scan ⟨2⟩ 0) :: List.replicate 3 (.advance 0)) ∧
    ∃ file ts ts', (run Op.filled { store := .ofInts }).store.file? 0 = some file ∧
      scanned? (run Op.filled { store := .ofInts }) ⟨2⟩ 0 [.advance 0, .advance 0] = some ts ∧
      [.advance 0, .advance 0] <+: Op.passing ∧
      scanned? (run (Op.filled ++ .begin (.scan ⟨2⟩ 0) :: Op.passing) { store := .ofInts }) ⟨2⟩ 0
        (List.replicate 3 (.advance 0)) = some ts' ∧
      ts.map Tuple.fields = [[.int 5], [.int 6]] ∧ ts'.map Tuple.fields = [[.int 6], [.int 9]] ∧
      ∃ meanwhile, meanwhile = changes (Op.passing ++ .begin (.scan ⟨2⟩ 0) :: List.replicate 3 (.advance 0))
          (run (Op.filled ++ [.begin (.scan ⟨2⟩ 0)]) { store := .ofInts }) ∧
        (∀ x ∈ ts, ∃ rid, x.recordId = some rid ∧
          ((∃ y ∈ ts', y.recordId = some rid ∧ y.fields = x.fields) ∨ .deleted ⟨2⟩ rid ∈ meanwhile)) ∧
        ∀ y ∈ ts', ∃ rid, y.recordId = some rid ∧
          ((∃ x ∈ ts, x.recordId = some rid ∧ x.fields = y.fields) ∨ .inserted ⟨2⟩ rid y.fields ∈ meanwhile ∨
            file.pages.pageCount ≤ rid.page.number) := by
  have hopening : Opening .ofInts := Opening.ofFile (by decide) ..
  have hplain : ∀ op ∈ Op.filled ++ .begin (.scan ⟨2⟩ 0) :: (Op.passing ++ .begin (.scan ⟨2⟩ 0) ::
      List.replicate 3 (.advance 0)), op.isPlain = true := by decide
  have hends : ∀ wantsCommit, .complete ⟨2⟩ wantsCommit ∉ Op.passing ++ .begin (.scan ⟨2⟩ 0) ::
      List.replicate 3 (.advance 0) := by simp [Op.passing]
  have hfile : ((run Op.filled { store := .ofInts }).store.file? 0).isSome = true := by decide +kernel
  have hfirst : (scanned? (run Op.filled { store := .ofInts }) ⟨2⟩ 0 [.advance 0, .advance 0]).map
      (List.map Tuple.fields) = some [[.int 5], [.int 6]] := by decide +kernel
  have hlast : (scanned? (run (Op.filled ++ .begin (.scan ⟨2⟩ 0) :: Op.passing) { store := .ofInts }) ⟨2⟩ 0
      (List.replicate 3 (.advance 0))).map (List.map Tuple.fields) = some [[.int 6], [.int 9]] := by decide +kernel
  obtain ⟨file, hfile⟩ := Option.isSome_iff_exists.1 hfile
  obtain ⟨ts, hfirst, hfields⟩ := Option.map_eq_some_iff.1 hfirst
  obtain ⟨ts', hlast, hfields'⟩ := Option.map_eq_some_iff.1 hlast
  have hgap : [.advance 0, .advance 0] <+: Op.passing := ⟨_, rfl⟩
  exact ⟨hopening, hplain, hends, file, ts, ts', hfile, hfirst, hgap, hlast, hfields, hfields',
    run_repeats hopening hplain hends hfile hfirst hgap hlast⟩

end World

end TupleStore
