import TupleStore.Error

/-!
# Files of pages

A file is read as an array of pages of one size: page `n` begins at byte `n * pageSize`, and a partial
page at the end counts as a whole one. A handle remembers the size and the number of pages; the
content is the file's own, so several handles can stand on one file.

* `ofContent?` : the handle of a file as it is now;
* `read` : a page below the count, filled up with zeros where the file ends inside it;
* `write` : a page of the right size, at any number; the file is extended with zeros up to it;
* `allocate` : a page of zeros at the count.
-/

namespace TupleStore

set_option autoImplicit false

namespace Bytes

/-- The string with `data` written at an offset, as a file is written: a gap before it is zeros. -/
def writeAt (content : Bytes) (off : Nat) (data : Bytes) : Bytes :=
  overlay (content ++ zeros (off - content.length)) off data

end Bytes

/-- A handle on a file of pages. -/
structure PageFile where
  pageSize : Nat
  pageCount : Nat
deriving DecidableEq, Repr

namespace PageFile

/-- The handle of an empty file. -/
def empty (pageSize : Nat) : PageFile := ⟨pageSize, 0⟩

/-- The handle of a file with some content; there is none for pages of no bytes. -/
def ofContent? (content : Bytes) (pageSize : Nat) : Option PageFile :=
  if pageSize = 0 then none
  else some ⟨pageSize, (content.length + pageSize - 1) / pageSize⟩

/-- The bytes of a page. -/
def read (f : PageFile) (content : Bytes) (page : PageId) : Except Error Bytes :=
  if page.number < f.pageCount then .ok (Bytes.window content (page.offset f.pageSize) f.pageSize)
  else .error (.pageNotFound page)

/-- The handle and the content after a page is written. -/
def write (f : PageFile) (content : Bytes) (page : PageId) (bytes : Bytes) :
    Except Error (PageFile × Bytes) :=
  if bytes.length = f.pageSize then
    .ok ({ f with pageCount := max f.pageCount (page.number + 1) },
      content.writeAt (page.offset f.pageSize) bytes)
  else .error (.pageSizeMismatch f.pageSize bytes.length)

/-- The handle and the content after a page of zeros is appended. Its number is the old count. -/
def allocate (f : PageFile) (content : Bytes) : PageFile × Bytes :=
  ({ f with pageCount := f.pageCount + 1 },
    content.writeAt (f.pageCount * f.pageSize) (Bytes.zeros f.pageSize))

end PageFile

end TupleStore
