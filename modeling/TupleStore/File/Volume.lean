import TupleStore.Catalog
import TupleStore.File.Folder
import TupleStore.File.PageFile
import TupleStore.Page.Layout

/-!
# Table files

A heap file is the handle of a table: its id, the schema of its tuples, and a handle on the pages of
its file. A volume is a folder with the handles that were opened on its files; several can stand on
one file, and each keeps its own number of pages.

* `create`, `openFile` : new handles, if a tuple fits in a page;
* `readPage`, `writePage`, `allocatePage` : pages of a table through a handle. The last always gives a
  page past those that this handle knows of.
-/

namespace TupleStore

set_option autoImplicit false

/-- The handle of a table. -/
structure HeapFile where
  id : TableId
  /-- The own name of the file in its folder. -/
  name : String
  schema : Schema
  pages : PageFile

namespace HeapFile

/-- Where things are in the pages of the table. -/
def layout (h : HeapFile) : Layout := Layout.ofSchema h.schema h.pages.pageSize

end HeapFile

/-- A folder, and the handles on its files in the order in which they were opened. -/
structure Volume where
  folder : Folder := {}
  handles : List HeapFile := []

namespace Volume

/-! ## Handles -/

/-- A page has room for a tuple. -/
def checkFits (schema : Schema) (pageSize : Nat) : Except Error Unit :=
  if (Layout.ofSchema schema pageSize).slots = 0 then
    .error (.invalidConfig (.tupleTooWide schema.width pageSize))
  else .ok ()

/-- The id of the table in a file of the folder. -/
def tableId (name : String) : TableId := TableId.ofPath ('/' :: name.toList)

/-- The volume with one more handle. -/
def addHandle (v : Volume) (h : HeapFile) : HandleId × Volume :=
  (v.handles.length, { v with handles := v.handles ++ [h] })

/-- A new file, without pages. -/
def create (v : Volume) (path : String) (schema : Schema) (pageSize : Nat) :
    Except Error (HandleId × Volume) :=
  match checkFits schema pageSize with
  | .error e => .error e
  | .ok () =>
    match v.folder.create path with
    | .error fault => .error (.io fault)
    | .ok (name, folder) =>
      .ok ({ v with folder }.addHandle ⟨tableId name, name, schema, .empty pageSize⟩)

/-- A handle on a file that there is. -/
def openFile (v : Volume) (path : String) (schema : Schema) (pageSize : Nat) :
    Except Error (HandleId × Volume) :=
  match checkFits schema pageSize with
  | .error e => .error e
  | .ok () =>
    match v.folder.find path with
    | .error fault => .error (.io fault)
    | .ok name =>
      let pages := (PageFile.ofContent? (v.folder.content name) pageSize).getD (.empty pageSize)
      .ok (v.addHandle ⟨tableId name, name, schema, pages⟩)

/-- The volume with the handle's pages counted anew and its file written. -/
def update (v : Volume) (h : HandleId) (file : HeapFile) (pages : PageFile) (content : Bytes) : Volume where
  folder := v.folder.put file.name content
  handles := v.handles.set h { file with pages }

/-- The pages that all handles know of, taken together. -/
def totalPages (v : Volume) : Nat := v.handles.foldr (fun h n => h.pages.pageCount + n) 0

/-! ## Pages -/

/-- The bytes of a page. A page of another table is not found. -/
def readPage (v : Volume) (file : HeapFile) (page : PageId) : Except Error Bytes :=
  if page.table = file.id then file.pages.read (v.folder.content file.name) page
  else .error (.pageNotFound page)

/-- The volume with a page written through a handle. -/
def writePage (v : Volume) (h : HandleId) (file : HeapFile) (page : PageId) (bytes : Bytes) :
    Except Error Volume :=
  if page.table = file.id then
    match file.pages.write (v.folder.content file.name) page bytes with
    | .error e => .error e
    | .ok (pages, content) => .ok (v.update h file pages content)
  else .error (.pageNotFound page)

/-- A page of zeros appended through a handle: the page, and the volume with it. -/
def allocatePage (v : Volume) (h : HandleId) (file : HeapFile) : PageId × Volume :=
  let (pages, content) := file.pages.allocate (v.folder.content file.name)
  (⟨file.id, file.pages.pageCount⟩, v.update h file pages content)

end Volume

end TupleStore
