import TupleStore.Log.Basic
import TupleStore.Proofs.Log.Frames

/-!
# Logs that are written and read back

A log takes records, is forced, closed and opened again, and read, in any order (`LogStep`).

* `LogFile.Has` : the file has the frames of the first so many records, and the buffer has those of the others. Every
  step keeps this, for no fewer records than before (`Has.apply`, `Has.run`);
* `LogFile.run_reads` : a log on whole frames is a sequence that only grows: what is read is the beginning of all that
  was ever appended, and has at least what was there at the last force;
* `LogFile.run_loses_nothing_iff` : a log on any content that can be read keeps all that is appended and forced exactly
  if the content ends with a whole frame. New frames are written behind whatever there is, so behind a frame that a
  crash has torn they are lost (`LogFile.run_torn`).
-/

namespace TupleStore

set_option autoImplicit false

/-- What can be done to a log. -/
inductive LogStep where
  | append (r : LogRecord)
  | force
  | reopen
  /-- Read the records. -/
  | read

namespace LogStep

/-- The record that is appended, if one is. -/
def record? : LogStep → Option LogRecord
  | append r => some r
  | _ => none

/-- Whether all that was appended before is in the file after it. -/
def settles : LogStep → Bool
  | force => true
  | reopen => true
  | _ => false

/-- The records that are appended, in order. -/
def appended (steps : List LogStep) : List LogRecord := steps.filterMap record?

theorem appended_cons (step : LogStep) (steps : List LogStep) :
    appended (step :: steps) = step.record?.toList ++ appended steps := by
  cases step <;> rfl

theorem record?_of_settles {step : LogStep} (h : step.settles = true) : step.record? = none := by
  cases step with
  | append r => cases h
  | _ => rfl

end LogStep

open LogStep

namespace LogFile

/-- The log that is opened on a file of some content, or on a new file where there was none. -/
def opened (content : Option Bytes) : LogFile := { content := content.getD [] }

/-- The log after a step. -/
def apply (l : LogFile) : LogStep → LogFile
  | .append r => l.append r
  | .force => l.force
  | .reopen => l.reopen
  | .read => l

/-- The log after many steps. -/
def run (steps : List LogStep) (l : LogFile) : LogFile := steps.foldl apply l

variable {l : LogFile} {rs old : List LogRecord} {n : Nat} {content : Bytes}

/-! ## What the file has -/

/-- The file has the frames of the first `n` records, and the buffer has those of the others. -/
structure Has (l : LogFile) (rs : List LogRecord) (n : Nat) : Prop where
  le : n ≤ rs.length
  content : l.content = LogRecord.frames crc32 (rs.take n)
  unwritten : l.unwritten = LogRecord.frames crc32 (rs.drop n)

namespace Has

theorem bytes (h : l.Has rs n) : l.bytes = LogRecord.frames crc32 rs := by
  rw [LogFile.bytes, h.content, h.unwritten, ← LogRecord.frames_append, List.take_append_drop]

theorem writeOut (h : l.Has rs n) : l.writeOut.Has rs rs.length := by
  refine ⟨Nat.le_refl _, ?_, ?_⟩
  · rw [List.take_length]
    exact h.bytes
  · rw [List.drop_length]
    rfl

theorem buffer (h : l.Has rs n) (r : LogRecord) :
    Has { l with unwritten := l.unwritten ++ r.frame crc32 } (rs ++ [r]) n := by
  refine ⟨Nat.le_trans h.le (List.length_append ▸ Nat.le_add_right ..), ?_, ?_⟩
  · rw [List.take_append_of_le_length h.le]
    exact h.content
  · rw [List.drop_append_of_le_length h.le, LogRecord.frames_append, LogRecord.frames_singleton]
    exact congrArg (· ++ r.frame crc32) h.unwritten

/-- A record that is appended may bring others into the file, whole ones. -/
theorem append (h : l.Has rs n) (r : LogRecord) : ∃ n', n ≤ n' ∧ (l.append r).Has (rs ++ [r]) n' := by
  have hroom : ∃ m, n ≤ m ∧
      (if l.unwritten.length + (r.frame crc32).length ≤ bufferSize then l else l.writeOut).Has rs m := by
    split
    · exact ⟨n, Nat.le_refl n, h⟩
    · exact ⟨rs.length, h.le, h.writeOut⟩
  obtain ⟨m, hm, hroom⟩ := hroom
  unfold LogFile.append LogFile.appendFrame
  dsimp only
  split
  · exact ⟨_, Nat.le_trans hm (hroom.buffer r).le, (hroom.buffer r).writeOut⟩
  · exact ⟨m, hm, hroom.buffer r⟩

theorem apply (h : l.Has rs n) (step : LogStep) :
    ∃ n', n ≤ n' ∧ (l.apply step).Has (rs ++ step.record?.toList) n' ∧ (step.settles = true → n' = rs.length) := by
  have hsame : rs ++ [] = rs := List.append_nil rs
  cases step with
  | append r =>
    obtain ⟨n', hn, h'⟩ := h.append r
    exact ⟨n', hn, h', nofun⟩
  | force => exact ⟨rs.length, h.le, hsame.symm ▸ h.writeOut, fun _ => rfl⟩
  | reopen => exact ⟨rs.length, h.le, hsame.symm ▸ h.writeOut, fun _ => rfl⟩
  | read => exact ⟨n, Nat.le_refl n, hsame.symm ▸ h, nofun⟩

/-- The file never has fewer records, and has all those that were appended before it was settled. -/
theorem run (h : l.Has rs n) (steps : List LogStep) :
    ∃ n', n ≤ n' ∧ (l.run steps).Has (rs ++ appended steps) n' ∧
      ∀ before step after, steps = before ++ step :: after → step.settles = true →
        (rs ++ appended before).length ≤ n' := by
  induction steps generalizing l rs n with
  | nil => exact ⟨n, Nat.le_refl n, (List.append_nil rs).symm ▸ h, fun before step after e => by simp at e⟩
  | cons step steps ih =>
    obtain ⟨n₁, hn₁, h₁, hsettled⟩ := h.apply step
    obtain ⟨n', hn', h', hbefore⟩ := ih h₁
    refine ⟨n', Nat.le_trans hn₁ hn', ?_, fun before s after e hs => ?_⟩
    · rw [appended_cons, ← List.append_assoc]
      exact h'
    · cases before with
      | nil =>
        obtain ⟨rfl, rfl⟩ := List.cons.inj e
        exact (List.append_nil rs).symm ▸ hsettled hs ▸ hn'
      | cons s' before =>
        obtain ⟨rfl, rfl⟩ := List.cons.inj e
        rw [appended_cons, ← List.append_assoc]
        exact hbefore before s after rfl hs

/-- Exactly the records in the file are read. -/
theorem records (h : l.Has rs n) (hfits : ∀ r ∈ rs, r.Fits) : l.records = .ok (rs.take n) := by
  rw [LogFile.records, h.content]
  exact (LogRecord.isLog_frames fun r hr => hfits r (List.mem_of_mem_take hr)).readFrames

end Has

/-! ## A log that only grows -/

/-- A log that is opened on whole frames, or on a new file, can always be read. What is read is the beginning of all
that was there and was appended since. It has everything that was appended before the last force and before the log
was last opened, and neither takes back what was read before. -/
theorem run_reads {content : Option Bytes} (hcontent : content.getD [] = LogRecord.frames crc32 rs)
    (hold : ∀ r ∈ rs, r.Fits) (steps : List LogStep) (hnew : ∀ r ∈ appended steps, r.Fits) :
    ∃ n, rs.length ≤ n ∧ ((opened content).run steps).records = .ok ((rs ++ appended steps).take n) ∧
      (∀ before step after, steps = before ++ step :: after → step.settles = true →
        (rs ++ appended before).length ≤ n) ∧
      ∀ step seen, step.settles = true → ((opened content).run steps).records = .ok seen →
        ∃ seen', (((opened content).run steps).apply step).records = .ok seen' ∧ seen <+: seen' := by
  have hfits : ∀ r ∈ rs ++ appended steps, r.Fits := fun r hr => (List.mem_append.1 hr).elim (hold r) (hnew r)
  have hstart : (opened content).Has rs rs.length :=
    ⟨Nat.le_refl _, by rw [List.take_length]; exact hcontent, by rw [List.drop_length]; rfl⟩
  obtain ⟨n, hn, h, hsettled⟩ := hstart.run steps
  refine ⟨n, hn, h.records hfits, hsettled, fun step seen hs hseen => ?_⟩
  obtain ⟨n', hle, h', -⟩ := h.apply step
  rw [record?_of_settles hs, Option.toList_none, List.append_nil] at h'
  obtain rfl := Except.ok.inj (hseen.symm.trans (h.records hfits))
  exact ⟨_, h'.records hfits, List.take_prefix_take_left hle⟩

/-- A record is appended and forced, another is appended, and the log is read and opened again. -/
def reopening : List LogStep :=
  [.append (.commit ⟨2⟩), .force, .append (.update ⟨3⟩ ⟨⟨0⟩, 7⟩ [1] [2]), .read, .reopen, .append (.abort ⟨3⟩)]

theorem run_reads_reopening :
    (∀ r ∈ [LogRecord.commit ⟨1⟩], r.Fits) ∧ (∀ r ∈ appended reopening, r.Fits) ∧
      ∃ n, 3 ≤ n ∧ ((opened (some (LogRecord.frames crc32 [.commit ⟨1⟩]))).run reopening).records =
        .ok (([LogRecord.commit ⟨1⟩] ++ appended reopening).take n) := by
  have hold : ∀ r ∈ [LogRecord.commit ⟨1⟩], r.Fits := fun r hr => List.mem_singleton.1 hr ▸ LogRecord.fits_commit _
  have hnew : ∀ r ∈ appended reopening, r.Fits := by
    simp only [reopening, appended, List.filterMap_cons, record?, List.filterMap_nil, List.forall_mem_cons]
    exact ⟨⟨by decide, trivial⟩, ⟨by decide, (by decide : 7 < UInt32.size)⟩, ⟨by decide, trivial⟩,
      fun _ h => (List.not_mem_nil h).elim⟩
  have hcontent : (some (LogRecord.frames crc32 [.commit ⟨1⟩])).getD [] = LogRecord.frames crc32 [.commit ⟨1⟩] := rfl
  obtain ⟨n, -, hread, hsettled, -⟩ := run_reads hcontent hold reopening hnew
  exact ⟨hold, hnew, n, hsettled (reopening.take 4) .reopen (reopening.drop 5) rfl rfl, hread⟩

/-! ## A log behind a torn frame -/

/-- What is appended comes behind what there is, in the file or in the buffer. -/
theorem bytes_run (l : LogFile) (steps : List LogStep) :
    (l.run steps).bytes = l.bytes ++ LogRecord.frames crc32 (appended steps) := by
  induction steps generalizing l with
  | nil => exact (List.append_nil _).symm
  | cons step steps ih =>
    have hstep : (l.apply step).bytes = l.bytes ++ LogRecord.frames crc32 step.record?.toList := by
      cases step with
      | append r => exact (bytes_append l r).trans (congrArg (l.bytes ++ ·) (LogRecord.frames_singleton r).symm)
      | force => exact (bytes_writeOut l).trans (List.append_nil _).symm
      | reopen => exact (bytes_writeOut l).trans (List.append_nil _).symm
      | read => exact (List.append_nil _).symm
    show ((l.apply step).run steps).bytes = _
    rw [ih, hstep, appended_cons, LogRecord.frames_append, List.append_assoc]

/-- Where nothing is to be written and nothing is appended, nothing happens. -/
theorem run_of_settled (h : l.unwritten = []) {steps : List LogStep} (hs : appended steps = []) : l.run steps = l := by
  induction steps generalizing l with
  | nil => rfl
  | cons step steps ih =>
    rw [appended_cons, List.append_eq_nil_iff] at hs
    have hsame : l.writeOut = l := by
      rw [writeOut, h, List.append_nil, ← h]
    have hstep : l.apply step = l := by
      cases step with
      | append r => cases hs.1
      | force => exact hsame
      | reopen => exact hsame
      | read => rfl
    show (l.apply step).run steps = l
    rw [hstep]
    exact ih h hs.2

/-- Once a log is forced, its file has all that was there and was appended since. -/
theorem content_run_force (l : LogFile) (before : List LogStep) {after : List LogStep} (ha : appended after = []) :
    (l.run (before ++ .force :: after)).content = l.bytes ++ LogRecord.frames crc32 (appended before) := by
  rw [run, List.foldl_append, List.foldl_cons]
  show (LogFile.run after (l.run before).force).content = _
  rw [run_of_settled (l := (l.run before).force) rfl ha]
  exact bytes_run l before

/-- A record whose frame does not begin with a given byte. -/
theorem exists_other_frame (b : UInt8) : ∃ r : LogRecord, r.Fits ∧ ∀ rest, r.frame crc32 ≠ b :: rest := by
  by_cases hb : b = 9
  · refine ⟨.update ⟨0⟩ ⟨⟨0⟩, 0⟩ [] [], ⟨(by decide : (25 : Nat) < UInt32.size), (by decide : 0 < UInt32.size)⟩, ?_⟩
    intro rest e
    have h25 : (25 : UInt8) = b := (List.cons.inj e).1
    rw [hb] at h25
    exact absurd h25 (by decide)
  · exact ⟨.commit ⟨0⟩, LogRecord.fits_commit _, fun rest e => hb (List.cons.inj e).1.symm⟩

/-- Behind a torn frame, a record is lost whose frame begins otherwise. -/
theorem not_isLog_of_torn {b : UInt8} {tail : Bytes} {r : LogRecord} (h : ∀ rest, r.frame crc32 ≠ b :: rest) :
    ¬ LogRecord.IsLog crc32 (old ++ [r]) (LogRecord.frames crc32 old ++ b :: tail ++ r.frame crc32) := by
  rintro ⟨-, tail', hbytes, -⟩
  rw [LogRecord.frames_append, LogRecord.frames_singleton, List.append_assoc, List.append_assoc] at hbytes
  have hfront : b :: (tail ++ r.frame crc32) = r.frame crc32 ++ tail' := List.append_cancel_left hbytes
  cases hf : r.frame crc32 with
  | nil => exact absurd hf (by rw [LogRecord.frame]; exact List.cons_ne_nil _ _)
  | cons b' rest =>
    rw [hf] at hfront
    obtain rfl : b = b' := (List.cons.inj hfront).1
    exact h rest hf

/-- A log on a content that can be read loses nothing of what is appended and forced, whatever is done to it, exactly
if the content is whole frames: if a torn frame is at its end, there are records that are lost. -/
theorem run_loses_nothing_iff (h : (opened (some content)).records = .ok old) :
    (∀ before after, (∀ r ∈ appended before, r.Fits) → appended after = [] →
      ((opened (some content)).run (before ++ .force :: after)).records = .ok (old ++ appended before)) ↔
      content = LogRecord.frames crc32 old := by
  obtain ⟨hold, tail, rfl, -⟩ := LogRecord.readFrames_eq_ok_iff.1 h
  have hread : ∀ before after, appended after = [] →
      ((opened (some (LogRecord.frames crc32 old ++ tail))).run (before ++ .force :: after)).records =
        LogRecord.readFrames crc32 (LogRecord.frames crc32 old ++ tail ++ LogRecord.frames crc32 (appended before)) :=
    fun before after ha => by
      rw [records, content_run_force _ _ ha, bytes, opened, Option.getD_some, List.append_nil]
  constructor
  · intro hall
    cases tail with
    | nil => exact List.append_nil _
    | cons b tail =>
      obtain ⟨r, hr, hother⟩ := exists_other_frame b
      have hlog := (hread [.append r] [] rfl).symm.trans
        (hall [.append r] [] (fun r' hr' => List.mem_singleton.1 hr' ▸ hr) rfl)
      exact absurd (LogRecord.readFrames_eq_ok_iff.1 hlog) ((LogRecord.frames_singleton r).symm ▸
        not_isLog_of_torn hother)
  · intro hcontent before after hnew ha
    rw [hread before after ha, hcontent, ← LogRecord.frames_append]
    exact (LogRecord.isLog_frames fun r hr => (List.mem_append.1 hr).elim (hold r) (hnew r)).readFrames

/-- A file with a record, and a frame behind it of which a crash has left 14 bytes. -/
def torn : Bytes := LogRecord.frames crc32 [.commit ⟨1⟩] ++ (LogRecord.frame crc32 (.commit ⟨2⟩)).take 14

theorem records_torn : (opened (some torn)).records = .ok [.commit ⟨1⟩] :=
  LogRecord.readFrames_torn (fun r hr => List.mem_singleton.1 hr ▸ LogRecord.fits_commit _) (.inr (by decide +kernel))

theorem run_loses_nothing_iff_torn :
    (opened (some torn)).records = .ok [.commit ⟨1⟩] ∧
      ¬ ∀ before after, (∀ r ∈ appended before, r.Fits) → appended after = [] →
        ((opened (some torn)).run (before ++ .force :: after)).records = .ok ([.commit ⟨1⟩] ++ appended before) :=
  ⟨records_torn, fun h => absurd ((run_loses_nothing_iff records_torn).1 h) (by decide +kernel)⟩

/-- A record that is appended behind a torn frame and forced is lost, and the log can no longer be read: the torn frame
is completed by the first bytes of the new one. -/
theorem run_torn :
    (opened (some torn)).records = .ok [.commit ⟨1⟩] ∧
      ((opened (some torn)).run [.append (.commit ⟨3⟩), .force]).records = .error (.corruptLog 17) := by
  refine ⟨records_torn, LogRecord.readFrames_eq_error_iff.2 ⟨[.commit ⟨1⟩],
    ((LogRecord.frame crc32 (.commit ⟨2⟩)).take 14 ++ LogRecord.frame crc32 (.commit ⟨3⟩)),
    fun r hr => List.mem_singleton.1 hr ▸ LogRecord.fits_commit _, by decide +kernel, by decide +kernel, ?_⟩⟩
  exact ⟨(LogRecord.payload (.commit ⟨2⟩)).take 6 ++ (LogRecord.frame crc32 (.commit ⟨3⟩)).take 3,
    crc32 (LogRecord.payload (.commit ⟨2⟩)), (LogRecord.frame crc32 (.commit ⟨3⟩)).drop 3, by decide +kernel,
    by decide +kernel, .inl (by decide +kernel)⟩

end LogFile

end TupleStore
