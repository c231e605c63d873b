import Mathlib.Algebra.Order.Floor.Div
import TupleStore.Proofs.File.Windows

/-!
# A file as an array of pages

A file with one handle on it is an array of pages that can grow. Its length in bytes is anything at first, and the
array has as many pages as are begun in it. Whatever is read, written and appended then, the handle counts the pages
that are begun, so a handle opened anew counts the same.

* `PageArray` : arrays of pages; `ofContent` is the array in the bytes of a file, and `put` a page set in it, with
  pages of zeros up to it;
* `PageArray.ofContent_writeAt` : a page written to the file is put in the array. An appended page is put at its end;
* `PagedFile` : the content of a file and its handle, with the operations (`Op`) that can be done one after another;
* `PagedFile.Counted` : what they preserve;
* `PagedFile.lastWritten?`, `PageArray.Shows` : what a page holds, told by the operations alone;
* `PagedFile.Grows`, `PagedFile.run_grows` : every operation is answered as by the array, and the laws of the array.
-/

namespace TupleStore

set_option autoImplicit false

/-! ## Arrays of pages -/

abbrev PageArray := List Bytes

namespace PageArray

variable {size n m : Nat} {a : PageArray} {content bytes : Bytes}

/-- The pages that are begun in the content of a file. The last is filled up with zeros. -/
def ofContent (size : Nat) (content : Bytes) : PageArray :=
  (List.range (content.length ⌈/⌉ size)).map fun n => content.window (n * size) size

/-- The array with a page set. It is extended with pages of zeros up to that page. -/
def put (size : Nat) (a : PageArray) (n : Nat) (bytes : Bytes) : PageArray :=
  (a ++ List.replicate (n + 1 - a.length) (Bytes.zeros size)).set n bytes

@[simp] theorem length_ofContent (size : Nat) (content : Bytes) :
    (ofContent size content).length = content.length ⌈/⌉ size := by
  simp [ofContent]

theorem getElem?_ofContent (size : Nat) (content : Bytes) (n : Nat) : (ofContent size content)[n]? =
    if n < content.length ⌈/⌉ size then some (content.window (n * size) size) else none := by
  unfold ofContent
  rw [List.getElem?_map]
  split
  · rename_i h
    rw [List.getElem?_range h]
    rfl
  · rename_i h
    rw [List.getElem?_eq_none (by simpa using h)]
    rfl

@[simp] theorem length_put (size : Nat) (a : PageArray) (n : Nat) (bytes : Bytes) :
    (a.put size n bytes).length = max a.length (n + 1) := by
  simp only [put, List.length_set, List.length_append, List.length_replicate]
  omega

theorem getElem?_put (size : Nat) (a : PageArray) (n m : Nat) (bytes : Bytes) : (a.put size n bytes)[m]? =
    if m = n then some bytes else if m < a.length then a[m]? else if m < n then some (Bytes.zeros size) else none := by
  unfold put
  rw [List.getElem?_set]
  by_cases hm : n = m
  · subst hm
    have hlt : n < (a ++ List.replicate (n + 1 - a.length) (Bytes.zeros size)).length := by
      simp only [List.length_append, List.length_replicate]
      omega
    rw [if_pos rfl, if_pos rfl, if_pos hlt]
  · rw [if_neg hm, if_neg (Ne.symm hm), List.getElem?_append, List.getElem?_replicate]
    split
    · rfl
    · split <;> split <;> first | rfl | omega

/-- A page put at the end of the array. -/
theorem put_length (size : Nat) (a : PageArray) (bytes : Bytes) : a.put size a.length bytes = a ++ [bytes] := by
  unfold put
  rw [Nat.add_sub_cancel_left, List.replicate_one, List.set_append_right _ _ (Nat.le_refl _), Nat.sub_self]
  rfl

/-! ### The array in a file -/

/-- Pages that are begun, counted after a write. -/
theorem ceilDiv_max (hs : 0 < size) (length n : Nat) :
    max length (n * size + size) ⌈/⌉ size = max (length ⌈/⌉ size) (n + 1) := by
  refine eq_of_forall_ge_iff fun k => ?_
  rw [ceilDiv_le_iff_le_mul hs, max_le_iff, max_le_iff, ceilDiv_le_iff_le_mul hs]
  refine and_congr_right fun _ => ?_
  rw [Nat.mul_comm n size, ← Nat.mul_succ]
  exact Nat.mul_le_mul_left_iff hs

/-- A page that is not begun lies past the end of the file. -/
theorem length_le_of_not_begun (hs : 0 < size) (h : ¬ n < content.length ⌈/⌉ size) : content.length ≤ n * size := by
  rw [Nat.mul_comm]
  exact (ceilDiv_le_iff_le_mul hs).1 (Nat.le_of_not_lt h)

/-- A page written to the file is put in the array. -/
theorem ofContent_writeAt (hs : 0 < size) (hl : bytes.length = size) (content : Bytes) (n : Nat) :
    ofContent size (content.writeAt (n * size) bytes) = (ofContent size content).put size n bytes := by
  have hcount : (content.writeAt (n * size) bytes).length ⌈/⌉ size = max (content.length ⌈/⌉ size) (n + 1) := by
    rw [Bytes.length_writeAt, hl, ceilDiv_max hs]
  apply List.ext_getElem?
  intro m
  rw [getElem?_ofContent, getElem?_put, length_ofContent, getElem?_ofContent, hcount]
  by_cases hm : m = n
  · subst hm
    have hself := Bytes.window_writeAt_self content bytes (m * size)
    rw [hl] at hself
    rw [if_pos (by omega), if_pos rfl, hself]
  · have hother := Bytes.window_writeAt_of_ne content bytes hm
    rw [hl] at hother
    rw [if_neg hm, hother]
    by_cases hold : m < content.length ⌈/⌉ size
    · rw [if_pos (by omega), if_pos hold, if_pos hold]
    · rw [if_neg hold, Bytes.window_of_le (length_le_of_not_begun hs hold)]
      split <;> split <;> first | rfl | omega

end PageArray

/-! ## Files with one handle -/

/-- The content of a file, and the handle on it. -/
structure PagedFile where
  handle : PageFile
  content : Bytes

namespace PagedFile

inductive Op where
  | read (page : PageId)
  | write (page : PageId) (bytes : Bytes)
  | allocate
  /-- The handle dropped, and another one opened. -/
  | reopen

inductive Reply where
  | content (bytes : Bytes)
  | done
  /-- The number of the page that was appended. -/
  | number (n : Nat)
  | failed (error : Error)

/-- A file opened; there is no handle for pages of no bytes. -/
def open? (size : Nat) (content : Bytes) : Option PagedFile :=
  (PageFile.ofContent? content size).map fun handle => ⟨handle, content⟩

def apply (f : PagedFile) : Op → Reply × PagedFile
  | .read page =>
    match f.handle.read f.content page with
    | .ok bytes => (.content bytes, f)
    | .error e => (.failed e, f)
  | .write page bytes =>
    match f.handle.write f.content page bytes with
    | .ok (handle, content) => (.done, ⟨handle, content⟩)
    | .error e => (.failed e, f)
  | .allocate =>
    let (handle, content) := f.handle.allocate f.content
    (.number f.handle.pageCount, ⟨handle, content⟩)
  | .reopen => (.done, (open? f.handle.pageSize f.content).getD f)

/-- The answers to some operations, and the file afterwards. -/
def run (f : PagedFile) : List Op → List Reply × PagedFile
  | [] => ([], f)
  | op :: ops => ((f.apply op).1 :: ((f.apply op).2.run ops).1, ((f.apply op).2.run ops).2)

/-- The bytes that the operations have last written to a page, if they have. Bytes that are no page do not count. -/
def lastWritten? (size n : Nat) (ops : List Op) : Option Bytes :=
  (ops.filterMap fun
    | .write page bytes => if page.number = n ∧ bytes.length = size then some bytes else none
    | _ => none).getLast?

end PagedFile

namespace PageArray

open PagedFile (Op Reply)

/-- What the operations do to an array, and how they are answered. -/
def apply (size : Nat) (a : PageArray) : Op → Reply × PageArray
  | .read page =>
    match a[page.number]? with
    | some bytes => (.content bytes, a)
    | none => (.failed (.pageNotFound page), a)
  | .write page bytes =>
    if bytes.length = size then (.done, a.put size page.number bytes)
    else (.failed (.pageSizeMismatch size bytes.length), a)
  | .allocate => (.number a.length, a ++ [Bytes.zeros size])
  | .reopen => (.done, a)

def run (size : Nat) (a : PageArray) : List Op → List Reply × PageArray
  | [] => ([], a)
  | op :: ops => ((a.apply size op).1 :: (run size (a.apply size op).2 ops).1, (run size (a.apply size op).2 ops).2)

/-- The number of pages after an operation. -/
def countAfter (size count : Nat) : Op → Nat
  | .write page bytes => if bytes.length = size then max count (page.number + 1) else count
  | .allocate => count + 1
  | _ => count

theorem length_apply (size : Nat) (a : PageArray) (op : Op) :
    (a.apply size op).2.length = countAfter size a.length op := by
  cases op with
  | read page =>
    unfold apply
    dsimp only
    split <;> rfl
  | write page bytes =>
    unfold apply countAfter
    dsimp only
    split
    · exact length_put ..
    · rfl
  | allocate => exact List.length_append
  | reopen => rfl

/-- What reading a page comes to. -/
theorem reply_read (size : Nat) (a : PageArray) (page : PageId) : (a.apply size (.read page)).1 =
    (a[page.number]?).elim (.failed (.pageNotFound page)) .content := by
  simp only [apply]
  cases a[page.number]? <;> rfl

theorem run_concat (size : Nat) (a : PageArray) (ops : List Op) (op : Op) :
    (a.run size (ops ++ [op])).2 = ((a.run size ops).2.apply size op).2 := by
  induction ops generalizing a with
  | nil => rfl
  | cons op' ops ih => exact ih _

end PageArray

/-! ## The file is the array -/

namespace PagedFile

variable {size : Nat} {f : PagedFile}

/-- The handle counts the pages that are begun in the file. -/
def Counted (size : Nat) (f : PagedFile) : Prop := f.handle = ⟨size, f.content.length ⌈/⌉ size⟩

theorem open?_eq (hs : 0 < size) (content : Bytes) :
    open? size content = some ⟨⟨size, content.length ⌈/⌉ size⟩, content⟩ := by
  rw [open?, PageFile.ofContent?, if_neg (by omega)]
  rfl

/-- The file after a page is written at its place, counted as the handle does. -/
theorem counted_writeAt (hs : 0 < size) (content : Bytes) (n : Nat) {bytes : Bytes} (hl : bytes.length = size) :
    Counted size ⟨⟨size, max (content.length ⌈/⌉ size) (n + 1)⟩, content.writeAt (n * size) bytes⟩ := by
  unfold Counted
  rw [Bytes.length_writeAt, hl, PageArray.ceilDiv_max hs]

/-- Every operation is answered as by the array, does to the file what it does to the array, and is counted. -/
theorem Counted.apply (h : f.Counted size) (hs : 0 < size) (op : Op) :
    (f.apply op).1 = ((PageArray.ofContent size f.content).apply size op).1 ∧
      PageArray.ofContent size (f.apply op).2.content = ((PageArray.ofContent size f.content).apply size op).2 ∧
      (f.apply op).2.Counted size := by
  obtain ⟨handle, content⟩ := f
  have h : handle = ⟨size, content.length ⌈/⌉ size⟩ := h
  subst h
  cases op with
  | read page =>
    unfold PagedFile.apply PageArray.apply PageFile.read PageId.offset
    simp only [PageArray.getElem?_ofContent]
    by_cases hn : page.number < content.length ⌈/⌉ size
    · simp only [if_pos hn]
      exact ⟨trivial, trivial, rfl⟩
    · simp only [if_neg hn]
      exact ⟨trivial, trivial, rfl⟩
  | write page bytes =>
    unfold PagedFile.apply PageArray.apply PageFile.write PageId.offset
    simp only
    by_cases hl : bytes.length = size
    · rw [if_pos hl, if_pos hl]
      exact ⟨rfl, PageArray.ofContent_writeAt hs hl content page.number, counted_writeAt hs content page.number hl⟩
    · rw [if_neg hl, if_neg hl]
      exact ⟨rfl, rfl, rfl⟩
  | allocate =>
    let count := content.length ⌈/⌉ size
    have hzeros : (Bytes.zeros size).length = size := Bytes.length_zeros size
    have hcounted := counted_writeAt hs content count hzeros
    rw [Nat.max_eq_right (Nat.le_succ count)] at hcounted
    have hput := PageArray.ofContent_writeAt hs hzeros content count
    rw [show count = (PageArray.ofContent size content).length from (PageArray.length_ofContent ..).symm,
      PageArray.put_length, PageArray.length_ofContent] at hput
    exact ⟨congrArg Reply.number (PageArray.length_ofContent ..).symm, hput, hcounted⟩
  | reopen =>
    have hsame : (open? size content).getD ⟨⟨size, content.length ⌈/⌉ size⟩, content⟩ =
        ⟨⟨size, content.length ⌈/⌉ size⟩, content⟩ := by
      rw [open?_eq hs]
      rfl
    unfold PagedFile.apply PageArray.apply
    simp only [hsame]
    exact ⟨trivial, trivial, rfl⟩

theorem Counted.run (h : f.Counted size) (hs : 0 < size) (ops : List Op) :
    (f.run ops).1 = ((PageArray.ofContent size f.content).run size ops).1 ∧
      PageArray.ofContent size (f.run ops).2.content = ((PageArray.ofContent size f.content).run size ops).2 ∧
      (f.run ops).2.Counted size := by
  induction ops generalizing f with
  | nil => exact ⟨rfl, rfl, h⟩
  | cons op ops ih =>
    obtain ⟨hreply, hpages, hcounted⟩ := h.apply hs op
    obtain ⟨hreplies, hpages', hcounted'⟩ := ih hcounted
    rw [hpages] at hreplies hpages'
    refine ⟨?_, hpages', hcounted'⟩
    show (f.apply op).1 :: ((f.apply op).2.run ops).1 = _
    rw [hreply, hreplies]
    rfl

/-- The array has as many pages as the handle counts. -/
theorem Counted.length_eq (h : f.Counted size) : (PageArray.ofContent size f.content).length = f.handle.pageCount := by
  rw [PageArray.length_ofContent, show f.handle = _ from h]

end PagedFile

/-! ## What a page holds -/

namespace PageArray

open PagedFile (Op lastWritten?)

variable {size : Nat}

theorem lastWritten?_concat (size n : Nat) (ops : List Op) (op : Op) : lastWritten? size n (ops ++ [op]) =
    match op with
    | .write page bytes =>
      if page.number = n ∧ bytes.length = size then some bytes else lastWritten? size n ops
    | _ => lastWritten? size n ops := by
  unfold lastWritten?
  cases op with
  | write page bytes =>
    dsimp only
    by_cases hn : page.number = n ∧ bytes.length = size <;> simp [List.filterMap_append, hn]
  | _ => simp [List.filterMap_append]

theorem length_lastWritten? {n : Nat} {ops : List Op} {bytes : Bytes} (h : lastWritten? size n ops = some bytes) :
    bytes.length = size := by
  obtain ⟨op, -, hop⟩ := List.mem_filterMap.1 (List.mem_of_getLast? h)
  cases op with
  | write page bytes' =>
    simp only [Option.ite_none_right_eq_some, Option.some.injEq] at hop
    obtain ⟨⟨-, hlen⟩, rfl⟩ := hop
    exact hlen
  | _ => cases hop

/-- What an array shows of a file that it was at first, and of the operations since. -/
structure Shows (size : Nat) (content : Bytes) (ops : List Op) (a : PageArray) : Prop where
  /-- No page has been lost. -/
  begun : content.length ⌈/⌉ size ≤ a.length
  /-- What was written is in the array. -/
  written : ∀ n, a.length ≤ n → lastWritten? size n ops = none
  page : ∀ n, n < a.length → a[n]? = some ((lastWritten? size n ops).getD (content.window (n * size) size))

namespace Shows

variable {content : Bytes} {ops : List Op} {a : PageArray}

theorem ofContent (size : Nat) (content : Bytes) : Shows size content [] (PageArray.ofContent size content) where
  begun := (length_ofContent ..).ge
  written _ _ := rfl
  page _ hn := (getElem?_ofContent ..).trans (if_pos (hn.trans_eq (length_ofContent ..)))

/-- Past the end of the array there are zeros, as there are past the end of the file. -/
theorem window_eq (h : a.Shows size content ops) (hs : 0 < size) {n : Nat} (hn : a.length ≤ n) :
    content.window (n * size) size = Bytes.zeros size :=
  Bytes.window_of_le (length_le_of_not_begun hs (by have := h.begun; omega))

/-- An operation that changes nothing. -/
theorem skip (h : a.Shows size content ops) {op : Op}
    (hlast : ∀ n, lastWritten? size n (ops ++ [op]) = lastWritten? size n ops) : a.Shows size content (ops ++ [op]) where
  begun := h.begun
  written n hn := (hlast n).trans (h.written n hn)
  page n hn := hlast n ▸ h.page n hn

theorem append (h : a.Shows size content ops) (hs : 0 < size) :
    Shows size content (ops ++ [.allocate]) (a ++ [Bytes.zeros size]) where
  begun := by
    have := h.begun
    rw [List.length_append]
    omega
  written n hn := by
    rw [List.length_append] at hn
    exact (lastWritten?_concat ..).trans (h.written n (by omega))
  page n hn := by
    rw [lastWritten?_concat, List.getElem?_append]
    split
    · rename_i hlt
      exact h.page n hlt
    · rename_i hge
      obtain rfl : n = a.length := by
        rw [List.length_append, List.length_singleton] at hn
        omega
      rw [h.written a.length (Nat.le_refl _), Option.getD_none, h.window_eq hs (Nat.le_refl _), Nat.sub_self]
      rfl

theorem put (h : a.Shows size content ops) (hs : 0 < size) (page : PageId) {bytes : Bytes} (hl : bytes.length = size) :
    Shows size content (ops ++ [.write page bytes]) (a.put size page.number bytes) := by
  have hlast : ∀ n, lastWritten? size n (ops ++ [.write page bytes]) =
      if n = page.number then some bytes else lastWritten? size n ops := fun n => by
    rw [lastWritten?_concat]
    simp [hl, eq_comm]
  refine ⟨?_, fun n hn => ?_, fun n hn => ?_⟩
  · rw [length_put]
    exact h.begun.trans (Nat.le_max_left ..)
  · rw [length_put] at hn
    rw [hlast, if_neg (by omega)]
    exact h.written n (by omega)
  · rw [length_put] at hn
    rw [hlast, getElem?_put]
    by_cases hn' : n = page.number
    · simp [hn']
    · rw [if_neg hn', if_neg hn']
      split
      · rename_i hlt
        exact h.page n hlt
      · rename_i hge
        rw [if_pos (by omega), h.written n (by omega), Option.getD_none, h.window_eq hs (by omega)]

theorem apply (h : a.Shows size content ops) (hs : 0 < size) (op : Op) :
    (a.apply size op).2.Shows size content (ops ++ [op]) := by
  cases op with
  | read page =>
    have hsame : (a.apply size (.read page)).2 = a := by
      simp only [PageArray.apply]
      split <;> rfl
    rw [hsame]
    exact h.skip fun n => lastWritten?_concat ..
  | write page bytes =>
    by_cases hl : bytes.length = size
    · simp only [PageArray.apply, if_pos hl]
      exact h.put hs page hl
    · simp only [PageArray.apply, if_neg hl]
      refine h.skip fun n => (lastWritten?_concat ..).trans ?_
      simp [hl]
  | allocate => exact h.append hs
  | reopen => exact h.skip fun n => lastWritten?_concat ..

theorem run (hs : 0 < size) (content : Bytes) (ops : List Op) :
    ((PageArray.ofContent size content).run size ops).2.Shows size content ops := by
  induction ops using List.reverseRecOn with
  | nil => exact .ofContent size content
  | append_singleton ops op ih => exact run_concat .. ▸ ih.apply hs op

end Shows

/-- A page of the array holds what was last written to it. A page that was not written holds what the file had there
at first, and zeros if it did not reach so far. -/
theorem getElem?_run (hs : 0 < size) (content : Bytes) (ops : List Op) (n : Nat) :
    ((ofContent size content).run size ops).2[n]? =
      if n < ((ofContent size content).run size ops).2.length then
        some ((lastWritten? size n ops).getD (content.window (n * size) size))
      else none := by
  split
  · rename_i hn
    exact (Shows.run hs content ops).page n hn
  · rename_i hn
    exact List.getElem?_eq_none (Nat.le_of_not_lt hn)

end PageArray

/-! ## The laws -/

namespace PagedFile

/-- A file that was opened with some content, and what it does after some operations. -/
structure Grows (size : Nat) (content : Bytes) (ops : List Op) (f : PagedFile) : Prop where
  /-- Every operation is answered as by the array. -/
  replies : (f.run ops).1 = ((PageArray.ofContent size content).run size ops).1
  /-- At first there are as many pages as are begun in the content. -/
  opened : f.handle.pageCount = content.length ⌈/⌉ size
  counted : ∀ op, ((f.run ops).2.apply op).2.handle.pageCount =
    PageArray.countAfter size (f.run ops).2.handle.pageCount op
  /-- A page that there is holds what was last written to it, or else what the file had there at first, or zeros. -/
  read : ∀ page : PageId, ((f.run ops).2.apply (.read page)).1 =
    if page.number < (f.run ops).2.handle.pageCount then
      .content ((lastWritten? size page.number ops).getD <|
        if page.number < content.length ⌈/⌉ size then content.window (page.number * size) size else Bytes.zeros size)
    else .failed (.pageNotFound page)
  /-- Whatever is read has the size of a page. -/
  length : ∀ (page : PageId) (bytes : Bytes), ((f.run ops).2.apply (.read page)).1 = .content bytes → bytes.length = size
  /-- A page that is appended gets the next number, and no page changes. -/
  allocated : ((f.run ops).2.apply .allocate).1 = .number (f.run ops).2.handle.pageCount ∧
    ∀ page : PageId, page.number < (f.run ops).2.handle.pageCount →
      (((f.run ops).2.apply .allocate).2.apply (.read page)).1 = ((f.run ops).2.apply (.read page)).1
  /-- Bytes that are no page are not written. -/
  mismatched : ∀ (page : PageId) (bytes : Bytes), bytes.length ≠ size → (f.run ops).2.apply (.write page bytes) =
    (.failed (.pageSizeMismatch size bytes.length), (f.run ops).2)
  /-- A file that is opened anew is as it was. -/
  reopened : (f.run ops).2.apply .reopen = (.done, (f.run ops).2)

/-- A file is an array of pages that can grow, whatever its content is at first. -/
theorem run_grows {size : Nat} (hs : 0 < size) (content : Bytes) (ops : List Op) :
    ∃ f, open? size content = some f ∧ f.Grows size content ops := by
  refine ⟨⟨⟨size, content.length ⌈/⌉ size⟩, content⟩, open?_eq hs content, ?_⟩
  generalize hf : (⟨⟨size, content.length ⌈/⌉ size⟩, content⟩ : PagedFile) = f
  have hcontent : f.content = content := hf ▸ rfl
  have hopened : f.Counted size := hf ▸ rfl
  obtain ⟨hreplies, hpages, hcounted⟩ := hopened.run hs ops
  rw [hcontent] at hreplies hpages
  have hlength := hcounted.length_eq
  have hread : ∀ page : PageId, ((f.run ops).2.apply (.read page)).1 =
      if page.number < (f.run ops).2.handle.pageCount then
        .content ((lastWritten? size page.number ops).getD (content.window (page.number * size) size))
      else .failed (.pageNotFound page) := fun page => by
    rw [(hcounted.apply hs (.read page)).1, PageArray.reply_read, hpages, PageArray.getElem?_run hs, ← hpages, hlength]
    split <;> rfl
  have hsize : (f.run ops).2.handle.pageSize = size := congrArg PageFile.pageSize hcounted
  exact {
    replies := hreplies
    opened := by rw [show f.handle = _ from hopened, hcontent]
    counted := fun op => by
      obtain ⟨-, hpages', hcounted'⟩ := hcounted.apply hs op
      rw [← hcounted'.length_eq, hpages', PageArray.length_apply, hlength]
    read := fun page => by
      have hwindow : content.window (page.number * size) size =
          if page.number < content.length ⌈/⌉ size then content.window (page.number * size) size
          else Bytes.zeros size := by
        split
        · rfl
        · rename_i hn
          exact Bytes.window_of_le (PageArray.length_le_of_not_begun hs hn)
      rw [hread, ← hwindow]
    length := fun page bytes hb => by
      rw [hread] at hb
      split at hb
      · cases hb
        cases hl : lastWritten? size page.number ops with
        | none => simp
        | some bytes => exact PageArray.length_lastWritten? hl
      · cases hb
    allocated := by
      obtain ⟨hreply, hpages', hcounted'⟩ := hcounted.apply hs .allocate
      refine ⟨by rw [hreply, PageArray.apply, hlength], fun page hp => ?_⟩
      have hlt : page.number < (PageArray.ofContent size (f.run ops).2.content).length := hlength ▸ hp
      rw [(hcounted'.apply hs (.read page)).1, (hcounted.apply hs (.read page)).1, hpages', PageArray.reply_read,
        PageArray.reply_read, PageArray.apply, List.getElem?_append_left hlt]
    mismatched := fun page bytes hl => by
      unfold PagedFile.apply PageFile.write
      simp only [hsize, if_neg hl]
    reopened := by
      have hhandle : (f.run ops).2.handle = ⟨size, (f.run ops).2.content.length ⌈/⌉ size⟩ := hcounted
      have hsame : (f.run ops).2 = ⟨⟨size, (f.run ops).2.content.length ⌈/⌉ size⟩, (f.run ops).2.content⟩ := by
        rw [← hhandle]
      unfold PagedFile.apply
      rw [hsize, open?_eq hs, ← hsame]
      rfl }

/-- A page is written past the end of a file that ends inside its second page, one is appended, and the file is opened
anew. -/
def skipping : List Op := [.write ⟨⟨0⟩, 3⟩ [6, 7], .allocate, .reopen]

/-- Then the second page is filled up with a zero, and the third one, which was skipped, is zeros. -/
theorem run_grows_skipping : 0 < 2 ∧
    (∃ f, open? 2 [1, 2, 3] = some f ∧ f.Grows 2 [1, 2, 3] skipping) ∧
    ((PageArray.ofContent 2 [1, 2, 3]).run 2 skipping).2 = [[1, 2], [3, 0], [0, 0], [6, 7], [0, 0]] :=
  ⟨Nat.zero_lt_two, run_grows Nat.zero_lt_two [1, 2, 3] skipping, by decide⟩

end PagedFile

end TupleStore
