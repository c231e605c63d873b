import TupleStore.Proofs.Log.Payloads

/-!
# The format of logs

Every byte string is whole frames and then a rest that is torn or damaged (`exists_frames`), and what is read from it is
told by that (`readFrames_torn`, `readFrames_damaged`): the records of the frames if the rest is torn, and an error at
its offset if it is damaged. So no string is of both kinds, and none spells two lists of records
(`readFrames_format`).

* `Torn` : the end of the log cuts off a frame, or there is none;
* `block` : a payload behind a header, as it is in a frame, with any checksum;
* `Damaged` : a complete block that is no frame;
* `exists_cut` : a log that is cut somewhere is a log of the records that are wholly inside the cut.
-/

namespace TupleStore.LogRecord

set_option autoImplicit false

/-! ## What can follow the frames -/

/-- A rest that is too short for the header of a frame, or for the payload that the header announces. -/
def Torn (bytes : Bytes) : Prop :=
  bytes.length < headerSize ∨ bytes.length < headerSize + Bytes.leNat (bytes.take 4)

/-- A payload behind its length and a checksum. -/
def block (payload : Bytes) (sum : UInt32) : Bytes := Bytes.le32 payload.length ++ Bytes.le32 sum.toNat ++ payload

/-- A rest that begins with a complete block whose checksum is wrong, or whose payload is that of no record. -/
def Damaged (checksum : Bytes → UInt32) (bytes : Bytes) : Prop :=
  ∃ payload sum rest, payload.length < UInt32.size ∧ bytes = block payload sum ++ rest ∧
    (checksum payload ≠ sum ∨ ∀ r : LogRecord, r.Fits → r.payload ≠ payload)

variable {checksum : Bytes → UInt32} {payload bytes rest tail : Bytes} {sum : UInt32} {r : LogRecord}
  {rs rs' : List LogRecord} {off : Nat}

theorem length_block (payload : Bytes) (sum : UInt32) : (block payload sum).length = headerSize + payload.length := by
  simp only [block, List.length_append, Bytes.length_le32, headerSize]

theorem take_block (payload : Bytes) (sum : UInt32) (rest : Bytes) :
    (block payload sum ++ rest).take 4 = Bytes.le32 payload.length := by
  simp only [block, List.append_assoc]
  exact List.take_left' (Bytes.length_le32 _)

theorem frames_append (rs rs' : List LogRecord) :
    frames checksum (rs ++ rs') = frames checksum rs ++ frames checksum rs' := List.flatMap_append

theorem frames_singleton (r : LogRecord) : frames checksum [r] = frame checksum r := List.append_nil _

theorem torn_nil : Torn [] := .inl (Nat.zero_lt_succ 7)

/-- A rest that is not torn begins with a complete block. -/
theorem exists_block (h : ¬ Torn bytes) :
    ∃ payload sum rest, payload.length < UInt32.size ∧ bytes = block payload sum ++ rest := by
  obtain ⟨hheader, hlength⟩ := not_or.1 h
  rw [Nat.not_lt] at hheader hlength
  have hsize : (4 : Nat) ≤ bytes.length ∧ 4 ≤ (bytes.drop 4).length := by
    rw [List.length_drop]
    unfold headerSize at hheader
    omega
  have hlt : Bytes.leNat (bytes.take 4) < UInt32.size := by
    have h := Bytes.leNat_lt (bytes.take 4)
    rwa [List.length_take_of_le hsize.1] at h
  have hsum : Bytes.leNat ((bytes.drop 4).take 4) < UInt32.size := by
    have h := Bytes.leNat_lt ((bytes.drop 4).take 4)
    rwa [List.length_take_of_le hsize.2] at h
  have hpayload : ((bytes.drop headerSize).take (Bytes.leNat (bytes.take 4))).length = Bytes.leNat (bytes.take 4) := by
    rw [List.length_take_of_le]
    rw [List.length_drop]
    omega
  have hle : ∀ {word : Bytes}, word.length = 4 → Bytes.le32 (Bytes.leNat word) = word := fun {word} hw =>
    (congrArg (Bytes.leOctets · (Bytes.leNat word)) hw.symm).trans (Bytes.leOctets_leNat word)
  refine ⟨(bytes.drop headerSize).take (Bytes.leNat (bytes.take 4)), UInt32.ofNat (Bytes.leNat ((bytes.drop 4).take 4)),
    (bytes.drop headerSize).drop (Bytes.leNat (bytes.take 4)), hpayload.symm ▸ hlt, ?_⟩
  calc bytes
      = bytes.take 4 ++ ((bytes.drop 4).take 4 ++ (bytes.drop 4).drop 4) := by
        rw [List.take_append_drop, List.take_append_drop]
    _ = bytes.take 4 ++ ((bytes.drop 4).take 4 ++ bytes.drop headerSize) := by rw [List.drop_drop]; rfl
    _ = _ := by
        rw [block, hpayload, UInt32.toNat_ofNat_of_lt' hsum, hle (List.length_take_of_le hsize.1),
          hle (List.length_take_of_le hsize.2)]
        simp only [List.append_assoc, List.take_append_drop]

/-- A torn rest that is cut is torn. -/
theorem Torn.take (h : Torn bytes) (n : Nat) : Torn (bytes.take n) := by
  by_cases hn : n < headerSize
  · exact .inl (Nat.lt_of_le_of_lt (List.length_take_le ..) hn)
  · have hle : (bytes.take n).length ≤ bytes.length := List.length_take_le' ..
    have h4 : (bytes.take n).take 4 = bytes.take 4 := by
      unfold headerSize at hn
      rw [List.take_take, Nat.min_eq_left (by omega)]
    rw [Torn, h4]
    exact h.imp (Nat.lt_of_le_of_lt hle) (Nat.lt_of_le_of_lt hle)

/-- A block that is cut is torn. -/
theorem torn_take_block (hlt : payload.length < UInt32.size) {n : Nat} (hn : n < (block payload sum).length)
    (rest : Bytes) : Torn ((block payload sum ++ rest).take n) := by
  have hle : ((block payload sum ++ rest).take n).length ≤ n := List.length_take_le ..
  by_cases hheader : n < headerSize
  · exact .inl (Nat.lt_of_le_of_lt hle hheader)
  · refine .inr ?_
    unfold headerSize at hheader
    rw [List.take_take, Nat.min_eq_left (by omega), take_block, Bytes.leNat_le32 hlt, ← length_block payload sum]
    exact Nat.lt_of_le_of_lt hle hn

/-! ## What is read -/

theorem readFramesFrom_torn (h : Torn bytes) (off : Nat) : readFramesFrom checksum off bytes = .ok [] := by
  rw [readFramesFrom]
  split
  · rfl
  · rename_i hheader
    have hlength := h.resolve_left hheader
    dsimp only
    rw [if_pos]
    rw [List.length_drop]
    omega

theorem readFramesFrom_block (hlt : payload.length < UInt32.size) (off : Nat) (sum : UInt32) (rest : Bytes) :
    readFramesFrom checksum off (block payload sum ++ rest) =
      if checksum payload = sum then
        (payload? payload).elim (.error (.corruptLog off)) fun r =>
          (r :: ·) <$> readFramesFrom checksum (off + (block payload sum).length) rest
      else .error (.corruptLog off) := by
  have hwhole : block payload sum ++ rest =
      Bytes.le32 payload.length ++ (Bytes.le32 sum.toNat ++ (payload ++ rest)) := by
    simp only [block, List.append_assoc]
  have hsum : Bytes.leNat (((block payload sum ++ rest).drop 4).take 4) = sum.toNat := by
    rw [hwhole, List.drop_left' (Bytes.length_le32 _), List.take_left' (Bytes.length_le32 _),
      Bytes.leNat_le32 sum.toNat_lt]
  have hrest : (block payload sum ++ rest).drop headerSize = payload ++ rest := by
    rw [hwhole, ← List.append_assoc]
    exact List.drop_left' (by simp [headerSize])
  have hlength : (block payload sum ++ rest).length = headerSize + (payload.length + rest.length) := by
    rw [List.length_append, length_block, Nat.add_assoc]
  rw [readFramesFrom, if_neg (by omega)]
  dsimp only
  rw [take_block, Bytes.leNat_le32 hlt, hsum, hrest, List.take_left, List.drop_left, if_neg (by simp), length_block,
    Nat.add_assoc]
  by_cases e : checksum payload = sum
  · rw [if_pos e, if_pos (congrArg UInt32.toNat e)]
    cases payload? payload <;> rfl
  · rw [if_neg e, if_neg fun h => e (UInt32.toNat_inj.1 h)]

theorem readFramesFrom_frame (hr : r.Fits) (off : Nat) (rest : Bytes) :
    readFramesFrom checksum off (frame checksum r ++ rest) =
      (r :: ·) <$> readFramesFrom checksum (off + (frame checksum r).length) rest := by
  show readFramesFrom checksum off (block r.payload (checksum r.payload) ++ rest) = _
  rw [readFramesFrom_block hr.payload, if_pos rfl, hr.payload?_payload]
  rfl

theorem readFramesFrom_damaged (h : Damaged checksum bytes) (off : Nat) :
    readFramesFrom checksum off bytes = .error (.corruptLog off) := by
  obtain ⟨payload, sum, rest, hlt, rfl, h⟩ := h
  rw [readFramesFrom_block hlt]
  split
  · rename_i hsum
    have hnone : payload? payload = none := Option.eq_none_iff_forall_ne_some.2 fun r hp =>
      h.resolve_left (not_not_intro hsum) r (fits_of_payload? hp hlt) (payload?_eq_some_iff.1 hp).2
    exact congrArg (Option.elim · _ _) hnone
  · rfl

/-- The records of whole frames are read, and then the rest. -/
theorem readFramesFrom_frames (h : ∀ r ∈ rs, r.Fits) (off : Nat) (rest : Bytes) :
    readFramesFrom checksum off (frames checksum rs ++ rest) =
      (rs ++ ·) <$> readFramesFrom checksum (off + (frames checksum rs).length) rest := by
  induction rs generalizing off with
  | nil => exact (id_map _).symm
  | cons r rs ih =>
    show readFramesFrom checksum off (frame checksum r ++ frames checksum rs ++ rest) = _
    rw [List.append_assoc, readFramesFrom_frame (h r (List.mem_cons_self ..)),
      ih fun r' hr => h r' (List.mem_cons_of_mem _ hr)]
    rw [show (frames checksum (r :: rs)).length = (frame checksum r).length + (frames checksum rs).length from
      List.length_append, Nat.add_assoc]
    cases readFramesFrom checksum _ rest <;> rfl

theorem readFrames_torn (h : ∀ r ∈ rs, r.Fits) (htail : Torn tail) :
    readFrames checksum (frames checksum rs ++ tail) = .ok rs := by
  rw [readFrames, readFramesFrom_frames h, readFramesFrom_torn htail]
  exact congrArg Except.ok (List.append_nil rs)

theorem readFrames_damaged (h : ∀ r ∈ rs, r.Fits) (hrest : Damaged checksum rest) :
    readFrames checksum (frames checksum rs ++ rest) = .error (.corruptLog (frames checksum rs).length) := by
  rw [readFrames, readFramesFrom_frames h, readFramesFrom_damaged hrest, Nat.zero_add]
  rfl

/-! ## Every string -/

/-- A string is a log of records: their frames, and at most a torn one behind. -/
def IsLog (checksum : Bytes → UInt32) (rs : List LogRecord) (bytes : Bytes) : Prop :=
  (∀ r ∈ rs, r.Fits) ∧ ∃ tail, bytes = frames checksum rs ++ tail ∧ Torn tail

/-- A string is whole frames up to an offset, and damaged there. -/
def IsDamagedAt (checksum : Bytes → UInt32) (off : Nat) (bytes : Bytes) : Prop :=
  ∃ rs rest, (∀ r ∈ rs, r.Fits) ∧ bytes = frames checksum rs ++ rest ∧ off = (frames checksum rs).length ∧
    Damaged checksum rest

theorem IsLog.readFrames (h : IsLog checksum rs bytes) : readFrames checksum bytes = .ok rs := by
  obtain ⟨hfits, tail, rfl, htail⟩ := h
  exact readFrames_torn hfits htail

/-- Whole frames are a log. -/
theorem isLog_frames (h : ∀ r ∈ rs, r.Fits) : IsLog checksum rs (frames checksum rs) :=
  ⟨h, [], (List.append_nil _).symm, torn_nil⟩

theorem IsDamagedAt.readFrames (h : IsDamagedAt checksum off bytes) :
    readFrames checksum bytes = .error (.corruptLog off) := by
  obtain ⟨rs, rest, hfits, rfl, rfl, hrest⟩ := h
  exact readFrames_damaged hfits hrest

/-- Every string is whole frames, and then torn or damaged. -/
theorem exists_frames (checksum : Bytes → UInt32) (bytes : Bytes) :
    ∃ rs rest, (∀ r ∈ rs, r.Fits) ∧ bytes = frames checksum rs ++ rest ∧ (Torn rest ∨ Damaged checksum rest) := by
  induction hn : bytes.length using Nat.strongRecOn generalizing bytes with
  | ind n ih =>
    subst hn
    by_cases htorn : Torn bytes
    · exact ⟨[], bytes, fun _ h => (List.not_mem_nil h).elim, rfl, .inl htorn⟩
    · obtain ⟨payload, sum, rest, hlt, rfl⟩ := exists_block htorn
      by_cases hframe : checksum payload = sum ∧ ∃ r, payload? payload = some r
      · -- the block is a frame, and the rest behind it is shorter
        obtain ⟨rfl, r, hr⟩ := hframe
        obtain ⟨-, rfl⟩ := payload?_eq_some_iff.1 hr
        obtain ⟨rs, rest', hfits, rfl, h⟩ := ih rest.length
          (by rw [List.length_append, length_block]; unfold headerSize; omega) rest rfl
        refine ⟨r :: rs, rest', fun r' hr' => ?_, (List.append_assoc ..).symm, h⟩
        rcases List.mem_cons.1 hr' with rfl | hr'
        · exact fits_of_payload? hr hlt
        · exact hfits r' hr'
      · refine ⟨[], _, fun _ h => (List.not_mem_nil h).elim, rfl, .inr ⟨payload, sum, rest, hlt, rfl, ?_⟩⟩
        by_cases hsum : checksum payload = sum
        · exact .inr fun r hr hp => hframe ⟨hsum, r, hp ▸ hr.payload?_payload⟩
        · exact .inl hsum

/-- Every string is a log, or damaged somewhere. -/
theorem isLog_or_isDamagedAt (checksum : Bytes → UInt32) (bytes : Bytes) :
    (∃ rs, IsLog checksum rs bytes) ∨ ∃ off, IsDamagedAt checksum off bytes := by
  obtain ⟨rs, rest, hfits, hbytes, hrest⟩ := exists_frames checksum bytes
  exact hrest.imp (fun h => ⟨rs, hfits, rest, hbytes, h⟩) fun h => ⟨_, rs, rest, hfits, hbytes, rfl, h⟩

theorem readFrames_eq_ok_iff : readFrames checksum bytes = .ok rs ↔ IsLog checksum rs bytes := by
  refine ⟨fun h => ?_, IsLog.readFrames⟩
  obtain ⟨rs', h'⟩ | ⟨off, h'⟩ := isLog_or_isDamagedAt checksum bytes
  · obtain rfl : rs' = rs := Except.ok.inj (h'.readFrames.symm.trans h)
    exact h'
  · exact nomatch h'.readFrames.symm.trans h

theorem readFrames_eq_error_iff :
    readFrames checksum bytes = .error (.corruptLog off) ↔ IsDamagedAt checksum off bytes := by
  refine ⟨fun h => ?_, IsDamagedAt.readFrames⟩
  obtain ⟨rs', h'⟩ | ⟨off', h'⟩ := isLog_or_isDamagedAt checksum bytes
  · exact nomatch h'.readFrames.symm.trans h
  · obtain rfl : off' = off := Error.corruptLog.inj (Except.error.inj (h'.readFrames.symm.trans h))
    exact h'

/-! ## Logs cut off -/

/-- A log that is cut has the frames that are wholly inside, and then a torn one. -/
theorem exists_cut (hfits : ∀ r ∈ rs, r.Fits) (htail : Torn tail) (n : Nat) :
    ∃ k ≤ rs.length, ∃ tail', (frames checksum rs ++ tail).take n = frames checksum (rs.take k) ++ tail' ∧ Torn tail' ∧
      ∀ j ≤ rs.length, (frames checksum (rs.take j)).length ≤ n ↔ j ≤ k := by
  induction rs generalizing n with
  | nil =>
    refine ⟨0, Nat.le_refl _, tail.take n, rfl, htail.take n, fun j hj => ?_⟩
    obtain rfl := Nat.le_zero.1 hj
    exact iff_of_true (Nat.zero_le n) (Nat.le_refl 0)
  | cons r rs ih =>
    have hr := hfits r (List.mem_cons_self ..)
    have hwhole : frames checksum (r :: rs) ++ tail = frame checksum r ++ (frames checksum rs ++ tail) :=
      List.append_assoc ..
    have hlength : ∀ j, (frames checksum ((r :: rs).take (j + 1))).length =
        (frame checksum r).length + (frames checksum (rs.take j)).length := fun j => List.length_append
    rw [hwhole]
    by_cases hn : (frame checksum r).length ≤ n
    · obtain ⟨k, hk, tail', hcut, htorn, hinside⟩ := ih (fun r' hr' => hfits r' (List.mem_cons_of_mem _ hr'))
        (n - (frame checksum r).length)
      refine ⟨k + 1, Nat.succ_le_succ hk, tail', ?_, htorn, fun j hj => ?_⟩
      · rw [List.take_append, List.take_of_length_le hn, hcut]
        exact (List.append_assoc ..).symm
      · cases j with
        | zero => exact iff_of_true (Nat.zero_le n) (Nat.zero_le _)
        | succ j =>
          have h := hinside j (Nat.le_of_succ_le_succ hj)
          rw [hlength]
          omega
    · refine ⟨0, Nat.zero_le _, _, (List.nil_append _).symm, torn_take_block hr.payload (Nat.not_le.1 hn) _,
        fun j hj => ?_⟩
      cases j with
      | zero => exact iff_of_true (Nat.zero_le n) (Nat.le_refl 0)
      | succ j =>
        rw [hlength]
        omega

/-! ## The format -/

/-- How logs are written and read. -/
structure Format (checksum : Bytes → UInt32) : Prop where
  accepts : ∀ bytes rs, readFrames checksum bytes = .ok rs ↔ IsLog checksum rs bytes
  refuses : ∀ bytes off, readFrames checksum bytes = .error (.corruptLog off) ↔ IsDamagedAt checksum off bytes
  exhaustive : ∀ bytes, (∃ rs, IsLog checksum rs bytes) ∨ ∃ off, IsDamagedAt checksum off bytes
  exclusive : ∀ bytes rs off, IsLog checksum rs bytes → ¬ IsDamagedAt checksum off bytes
  unique : ∀ bytes rs rs', IsLog checksum rs bytes → IsLog checksum rs' bytes → rs = rs'
  decode_encode : ∀ r : LogRecord, r.Fits → payload? r.payload = some r
  encode_decode : ∀ (bytes : Bytes) (r : LogRecord), payload? bytes = some r → r.payload = bytes
  /-- A log that is cut anywhere is read as the records that are wholly inside the cut. -/
  cut : ∀ bytes rs n, IsLog checksum rs bytes → ∃ k ≤ rs.length, readFrames checksum (bytes.take n) = .ok (rs.take k) ∧
    ∀ j ≤ rs.length, (frames checksum (rs.take j)).length ≤ n ↔ j ≤ k

/-- Exactly the logs are read, whatever the checksum is. -/
theorem readFrames_format (checksum : Bytes → UInt32) : Format checksum where
  accepts _ _ := readFrames_eq_ok_iff
  refuses _ _ := readFrames_eq_error_iff
  exhaustive := isLog_or_isDamagedAt checksum
  exclusive _ _ _ h h' := nomatch h.readFrames.symm.trans h'.readFrames
  unique _ _ _ h h' := Except.ok.inj (h.readFrames.symm.trans h'.readFrames)
  decode_encode _ := Fits.payload?_payload
  encode_decode _ _ h := (payload?_eq_some_iff.1 h).2
  cut bytes rs n h := by
    obtain ⟨hfits, tail, rfl, htail⟩ := h
    obtain ⟨k, hk, tail', hcut, htorn, hinside⟩ := exists_cut hfits htail n
    exact ⟨k, hk, hcut ▸ readFrames_torn (fun r hr => hfits r (List.mem_of_mem_take hr)) htorn, hinside⟩

end TupleStore.LogRecord
