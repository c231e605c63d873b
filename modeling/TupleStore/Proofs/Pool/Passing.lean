import TupleStore.Proofs.File.Spans
import TupleStore.Proofs.Pool.Housing
import TupleStore.Proofs.Pool.Replacing

/-!
# What reading a page does to files

To read a page can mean that another one makes way, and that page is written if it is dirty. Nothing else is written,
and what is written has been counted by the handle of its table, so no table grows (`Calm.fetch`).

* `Copies.Passes` : a page is where it was, or has made way, and has perhaps come back. It loses nothing by it but bytes
  that differ from those of its file although nobody has marked them as changed (`Passes.shown`);
* `Volume.Single` : one handle for each table;
* `Store.Calm` : a store on its way from another one by reads alone.
-/

namespace TupleStore

set_option autoImplicit false

open TupleStore.Action

/-! ## Pages that make way -/

namespace Copies

variable {x y z : Copies} {c : Copy} {b : BeforeImage}

/-- The content that transactions are given: that in the cache, and else that of the file. -/
def shown (x : Copies) : Bytes :=
  match x.cached with
  | none => x.file
  | some c => c.bytes

/-- The page is where it was, or it has made way in the cache, and has perhaps come back. -/
inductive Passes (x : Copies) : Copies → Prop where
  | stays : Passes x x
  | leaves : Passes x x.flush.leave
  | returns : Passes x x.flush.leave.load

theorem retire_of_uncached (hc : x.cached = none) : x.flush.leave = x := by
  obtain ⟨cached, kept, file⟩ := x
  obtain rfl : cached = none := hc
  rfl

theorem cached_retire (x : Copies) : x.flush.leave.cached = none := by
  unfold leave
  split
  · assumption
  · rfl

/-- A page that has come back makes way as it did before. -/
theorem retire_return (x : Copies) : x.flush.leave.load.flush.leave = x.flush.leave := by
  have huncached := cached_retire x
  generalize x.flush.leave = y at huncached ⊢
  obtain ⟨cached, kept, file⟩ := y
  obtain rfl : cached = none := huncached
  cases kept <;> rfl

theorem shown_load (x : Copies) : x.load.shown = x.shown := by
  obtain ⟨cached, kept, file⟩ := x
  cases cached <;> rfl

theorem shown_of_uncached (hc : x.cached = none) : x.shown = x.file := by
  unfold shown
  rw [hc]

theorem before_retire (hapart : ∀ c, x.cached = some c → x.kept = none) (hb : x.flush.leave.kept = some b) :
    ∃ b₀, x.before = some b₀ ∧ b₀.owner = b.owner ∧ b₀.bytes = b.bytes := by
  obtain ⟨_ | c, kept, file⟩ := x
  · exact ⟨b, hb, rfl, rfl⟩
  · obtain rfl : kept = none := hapart c rfl
    unfold flush at hb
    dsimp only at hb
    split at hb
    · exact ⟨b, (Option.or_none ..).symm.trans hb, rfl, rfl⟩
    · have hb : (c.before.map fun b => { b with onDisk := true }).or none = some b := hb
      rw [Option.or_none] at hb
      obtain ⟨b₀, hb₀, rfl⟩ := Option.map_eq_some_iff.1 hb
      exact ⟨b₀, hb₀, rfl, rfl⟩

namespace Passes

/-- A page that comes back has not been there. -/
theorem comes (hc : x.cached = none) : x.Passes x.load := by
  have hreturns := Passes.returns (x := x)
  rwa [retire_of_uncached hc] at hreturns

theorem trans (h : x.Passes y) (h' : y.Passes z) : x.Passes z := by
  cases h with
  | stays => exact h'
  | leaves =>
    have hfixed := retire_of_uncached (cached_retire x)
    cases h' with
    | stays => exact .leaves
    | leaves =>
      rw [hfixed]
      exact .leaves
    | returns =>
      rw [hfixed]
      exact .returns
  | returns =>
    cases h' with
    | stays => exact .returns
    | leaves =>
      rw [retire_return]
      exact .leaves
    | returns =>
      rw [retire_return]
      exact .returns

/-- A page that is dirty has stayed. -/
theorem eq_of_dirty (h : x.Passes y) (hc : y.cached = some c) (hd : c.dirtyBy ≠ none) : y = x := by
  have huncached := cached_retire x
  cases h with
  | stays => rfl
  | leaves => exact nomatch huncached.symm.trans hc
  | returns =>
    refine absurd ?_ hd
    unfold load at hc
    rw [huncached] at hc
    cases hc
    rfl

/-- The content of a page stays, unless the page was clean and shows now what its file had. -/
theorem shown (h : x.Passes y) : y.shown = x.shown ∨
    ∃ c, x.cached = some c ∧ c.dirtyBy = none ∧ y.shown = x.file := by
  have hretire : x.flush.leave.shown = x.shown ∨
      ∃ c, x.cached = some c ∧ c.dirtyBy = none ∧ x.flush.leave.shown = x.file := by
    rw [shown_of_uncached (cached_retire x)]
    obtain ⟨_ | c, kept, file⟩ := x
    · exact .inl rfl
    · by_cases hd : c.dirtyBy = none
      · refine .inr ⟨c, rfl, hd, ?_⟩
        unfold flush
        dsimp only
        rw [if_pos hd]
        rfl
      · refine .inl ?_
        unfold flush
        dsimp only
        rw [if_neg hd]
        rfl
  cases h with
  | stays => exact .inl rfl
  | leaves => exact hretire
  | returns =>
    rw [shown_load]
    exact hretire

/-- On its way a page shows what it showed before, or what it shows afterwards. -/
theorem between (h : x.Passes y) (h' : y.Passes z) : y.shown = x.shown ∨ y.shown = z.shown := by
  cases h with
  | stays => exact .inl rfl
  | leaves =>
    have hfixed := retire_of_uncached (cached_retire x)
    refine .inr ?_
    cases h' with
    | stays => rfl
    | leaves => rw [hfixed]
    | returns => rw [hfixed, shown_load]
  | returns =>
    refine .inr ?_
    cases h' with
    | stays => rfl
    | leaves => rw [retire_return, shown_load]
    | returns => rw [retire_return]

/-- No before-image is new. -/
theorem before (h : x.Passes y) (hapart : ∀ c, x.cached = some c → x.kept = none) (hb : y.before = some b) :
    ∃ b₀, x.before = some b₀ ∧ b₀.owner = b.owner ∧ b₀.bytes = b.bytes := by
  have huncached := cached_retire x
  cases h with
  | stays => exact ⟨b, hb, rfl, rfl⟩
  | leaves =>
    unfold Copies.before at hb
    rw [huncached] at hb
    exact before_retire hapart hb
  | returns =>
    unfold Copies.before load at hb
    rw [huncached] at hb
    exact before_retire hapart hb

end Passes

end Copies

/-! ## Reads -/

/-- No table has two handles. -/
def Volume.Single (v : Volume) : Prop := ∀ (h h' : HandleId) (f f' : HeapFile), v.handles[h]? = some f →
  v.handles[h']? = some f' → f.id = f'.id → h = h'

/-- No file has two handles where no table has two. -/
theorem Volume.Single.of_name {v : Volume} {h h' : HandleId} {f f' : HeapFile} (hone : v.Single)
    (hnamed : ∀ (h : HandleId) (f : HeapFile), v.handles[h]? = some f → f.id = tableId f.name)
    (hf : v.handles[h]? = some f) (hf' : v.handles[h']? = some f') (hname : f.name = f'.name) : h = h' :=
  hone h h' f f' hf hf' (by rw [hnamed h f hf, hnamed h' f' hf', hname])

/-- Frames keep their pages or lose them, and a page that is dirty stays as it is. -/
structure Pool.Fades (p p' : Pool) : Prop where
  pages : ∀ (f : FrameId) (page : PageId), (p'.frame f).page = some page → (p.frame f).page = some page ∧
    ((p'.frame f).dirtyBy ≠ none → (p.frame f).copy = (p'.frame f).copy)
  config : p'.config = p.config
  locks : p'.locks = p.locks

namespace Pool.Fades

variable {p p' p'' : Pool} {f : FrameId}

theorem of_frames (hf : p'.frames = p.frames) (hc : p'.config = p.config) (hl : p'.locks = p.locks) : p.Fades p' :=
  have hframe : p'.frame = p.frame := by
    funext f
    rw [Pool.frame, Pool.frame, hf]
  ⟨fun f _ h => ⟨congrFun hframe f ▸ h, fun _ => congrArg Frame.copy (congrFun hframe f).symm⟩, hc, hl⟩

theorem trans (h : p.Fades p') (h' : p'.Fades p'') : p.Fades p'' where
  pages f page hf := by
    obtain ⟨hp', hd'⟩ := h'.pages f page hf
    obtain ⟨hp, hd⟩ := h.pages f page hp'
    refine ⟨hp, fun hne => ?_⟩
    have hcopy := hd' hne
    have hne' : (p'.frame f).dirtyBy ≠ none := fun e => hne ((congrArg Copy.dirtyBy hcopy).symm.trans e)
    exact (hd hne').trans hcopy
  config := h'.config.trans h.config
  locks := h'.locks.trans h.locks

theorem modifyFrame (p : Pool) (f : FrameId) {c : Frame → Frame} (hpage : ∀ x page, (c x).page = some page → x.page = some page)
    (hcopy : ∀ x, (c x).dirtyBy ≠ none → x.copy = (c x).copy) : p.Fades (p.modifyFrame f c) where
  pages g page hg := by
    rw [frame_modifyFrame] at hg ⊢
    split at hg
    · rename_i hin
      rw [if_pos hin]
      exact ⟨hpage _ page hg, hcopy _⟩
    · rename_i hout
      rw [if_neg hout]
      exact ⟨hg, fun _ => rfl⟩
  config := rfl
  locks := rfl

theorem reset (p : Pool) (f : FrameId) : p.Fades (p.modifyFrame f Frame.reset) :=
  modifyFrame p f nofun fun _ hd => absurd rfl hd

theorem foldl {γ : Type} {c : Pool → γ → Pool} (hc : ∀ (p : Pool) x, p.Fades (c p x)) (l : List γ) (p : Pool) :
    p.Fades (l.foldl c p) := by
  induction l generalizing p with
  | nil => exact of_frames rfl rfl rfl
  | cons x l ih => exact (hc p x).trans (ih (c p x))

theorem reclaim (p : Pool) : p.Fades p.reclaim :=
  (foldl (c := fun p f => p.modifyFrame f Frame.reset) (fun p f => reset p f)
    (p.pendingFree.filter fun f => !p.isPinned f) p).trans (of_frames rfl rfl rfl)

end Pool.Fades

/-- A store on its way from another one by reads. Its handles are the same, and frames hold pages that they count. A
page of a file is as it was, or was dirty and has been written. -/
structure Store.Calm (s₀ s : Store) : Prop where
  handles : s.volume.handles = s₀.volume.handles
  catalog : s.catalog = s₀.catalog
  config : s.pool.config = s₀.pool.config
  locks : s.pool.locks = s₀.pool.locks
  trace : s₀.trace <:+ s.trace
  frames : ∀ (f : FrameId) (page : PageId), (s.pool.frame f).page = some page → s₀.volume.Counts page ∧
    ((s.pool.frame f).dirtyBy ≠ none → (s₀.pool.frame f).page = some page ∧
      (s₀.pool.frame f).copy = (s.pool.frame f).copy)
  files : ∀ (h : HandleId) (f : HeapFile), s₀.volume.handles[h]? = some f → ∀ n,
    s.volume.filePage f.name f.pages.pageSize n = s₀.volume.filePage f.name f.pages.pageSize n ∨
      ∃ g, (s₀.pool.frame g).page = some ⟨f.id, n⟩ ∧ (s₀.pool.frame g).dirtyBy ≠ none ∧
        s.volume.filePage f.name f.pages.pageSize n = (s₀.pool.frame g).bytes
  /-- At most the last page has been filled up. -/
  lengths : ∀ (h : HandleId) (f : HeapFile), s₀.volume.handles[h]? = some f →
    (s₀.volume.folder.content f.name).length ≤ (s.volume.folder.content f.name).length ∧
      (s.volume.folder.content f.name).length ≤
        max (s₀.volume.folder.content f.name).length (f.pages.pageCount * f.pages.pageSize)

variable {s₀ s s' : Store} {f : FrameId} {page : PageId}

namespace Store.Calm

theorem refl (hcounts : ∀ (f : FrameId) (page : PageId), (s.pool.frame f).page = some page → s.volume.Counts page) :
    s.Calm s where
  handles := rfl
  catalog := rfl
  config := rfl
  locks := rfl
  trace := List.suffix_rfl
  frames f page hf := ⟨hcounts f page hf, fun _ => ⟨hf, rfl⟩⟩
  files _ _ _ _ := .inl rfl
  lengths _ _ _ := ⟨Nat.le_refl _, Nat.le_max_left ..⟩

theorem fade (h : s₀.Calm s) {p : Pool} (hp : s.pool.Fades p) : s₀.Calm { s with pool := p } where
  handles := h.handles
  catalog := h.catalog
  config := hp.config.trans h.config
  locks := hp.locks.trans h.locks
  trace := h.trace
  frames f page hf := by
    obtain ⟨hpage, hcopy⟩ := hp.pages f page hf
    obtain ⟨hcounts, hdirty⟩ := h.frames f page hpage
    refine ⟨hcounts, fun hd => ?_⟩
    have hd' : (s.pool.frame f).dirtyBy ≠ none := fun e => hd ((congrArg Copy.dirtyBy (hcopy hd)).symm.trans e)
    exact ⟨(hdirty hd').1, (hdirty hd').2.trans (hcopy hd)⟩
  files := h.files
  lengths := h.lengths

theorem relog (h : s₀.Calm s) (log : Log) (e : Effect) : s₀.Calm { s with log, trace := e :: s.trace } :=
  ⟨h.handles, h.catalog, h.config, h.locks, h.trace.trans (List.suffix_cons ..), h.frames, h.files, h.lengths⟩

theorem counts (h : s₀.Calm s) (hc : s.volume.Counts page) : s₀.volume.Counts page := by
  unfold Volume.Counts at hc ⊢
  rwa [h.handles] at hc

/-- A page that is read comes into a frame. -/
theorem install (h : s₀.Calm s) (f : FrameId) (bytes : Bytes) (hc : s₀.volume.Counts page) :
    s₀.Calm (s.modifyPool fun p => ((p.install f page bytes).pin f).touch f) where
  handles := h.handles
  catalog := h.catalog
  config := h.config
  locks := h.locks
  trace := h.trace
  frames g q hg := by
    have hpin : s.pool.install f page bytes |>.Fades (((s.pool.install f page bytes).pin f).touch f) :=
      (Pool.Fades.modifyFrame _ f (c := fun x => { x with pins := x.pins + 1 }) (fun _ _ hx => hx) fun _ _ => rfl).trans
        (.of_frames rfl rfl rfl)
    obtain ⟨hg, hcopy⟩ := hpin.pages g q hg
    have hframe : (s.pool.install f page bytes).frame g = (s.pool.modifyFrame f fun x => { x with
      bytes, page := some page, dirtyBy := none, before := s.pool.retained[page]? }).frame g := rfl
    rw [hframe, Pool.frame_modifyFrame] at hg hcopy
    split at hg
    · rename_i hin
      rw [if_pos hin] at hcopy
      cases hg
      exact ⟨hc, fun hd => absurd (congrArg Copy.dirtyBy (hcopy hd)).symm hd⟩
    · rename_i hout
      rw [if_neg hout] at hcopy
      obtain ⟨hcounts, hdirty⟩ := h.frames g q hg
      refine ⟨hcounts, fun hd => ?_⟩
      have hd' : (s.pool.frame g).dirtyBy ≠ none := fun e => hd ((congrArg Copy.dirtyBy (hcopy hd)).symm.trans e)
      exact ⟨(hdirty hd').1, (hdirty hd').2.trans (hcopy hd)⟩
  files := h.files
  lengths := h.lengths

section

variable (hone : s₀.volume.Single)
  (hnamed : ∀ (h : HandleId) (f : HeapFile), s₀.volume.handles[h]? = some f → f.id = Volume.tableId f.name)

include hone hnamed

/-- A dirty page is written to a place that its handle counts. -/
theorem write (h : s₀.Calm s) {hd : HandleId} {file : HeapFile} (hfile : s.volume.handles[hd]? = some file)
    (hid : page.table = file.id) (hl : (s.pool.frame f).bytes.length = file.pages.pageSize)
    (hf : (s.pool.frame f).page = some page) (hdirty : (s.pool.frame f).dirtyBy ≠ none) :
    s₀.Calm { s with volume := s.volume.written hd file page.number (s.pool.frame f).bytes } := by
  obtain ⟨⟨hd', file', hfile', hid', hlt⟩, hcopy⟩ := h.frames f page hf
  have hfile₀ : s₀.volume.handles[hd]? = some file := h.handles ▸ hfile
  obtain rfl : hd' = hd := hone _ _ _ _ hfile' hfile₀ (hid'.trans hid)
  cases hfile₀.symm.trans hfile'
  have hget := Volume.getElem?_written hfile page.number (s.pool.frame f).bytes
  -- the handle of a file with the same name is the same
  have hname : ∀ (h : HandleId) (g : HeapFile), s₀.volume.handles[h]? = some g → g.name = file.name → g = file :=
    fun h g hg hname => by
      obtain rfl := hone.of_name hnamed hg hfile₀ hname
      exact Option.some.inj (hg.symm.trans hfile₀)
  refine { h with
    handles := List.ext_getElem? fun i => ?_
    files := fun i g hg n => ?_
    lengths := fun i g hg => ?_ }
  · rw [hget, Nat.max_eq_left hlt]
    split
    · rename_i e
      rw [e, hfile₀]
    · rw [h.handles]
  · by_cases e : g.name = file.name
    · cases hname i g hg e
      have hpage := Volume.filePage_written s.volume hd' file page.number hl file.name n
      by_cases hn : n = page.number
      · refine .inr ⟨f, ?_, ?_, hpage.trans ((if_pos ⟨rfl, hn⟩).trans ?_)⟩
        · rw [(hcopy hdirty).1, hn, ← hid]
        · exact fun hnone => hdirty ((congrArg Copy.dirtyBy (hcopy hdirty).2).symm.trans hnone)
        · exact (congrArg Copy.bytes (hcopy hdirty).2).symm
      · rw [hpage, if_neg fun hh => hn hh.2]
        exact h.files i file hg n
    · rw [Volume.filePage_written_of_ne _ _ _ _ _ e]
      exact h.files i g hg n
  · obtain ⟨hle, hge⟩ := h.lengths i g hg
    show _ ≤ ((s.volume.written hd' file page.number (s.pool.frame f).bytes).folder.content g.name).length ∧
      ((s.volume.written hd' file page.number (s.pool.frame f).bytes).folder.content g.name).length ≤ _
    rw [Volume.content_written]
    split
    · rename_i e
      cases hname i g hg e
      have hend : page.number * file.pages.pageSize + file.pages.pageSize ≤ file.pages.pageCount * file.pages.pageSize := by
        rw [← Nat.succ_mul]
        exact Nat.mul_le_mul_right _ hlt
      rw [Bytes.length_writeAt, hl]
      omega
    · exact ⟨hle, hge⟩

end

end Store.Calm

namespace Action

/-! ### What the cache does -/

theorem calm_modifyPool {g : Pool → Pool} (hg : ∀ p : Pool, p.Fades (g p)) : Keeps s₀.Calm (modifyPool g) :=
  .modifyPool fun _ h => h.fade (hg _)

theorem calm_count (g : Counters → Counters) : Keeps s₀.Calm (modifyPool fun p => p.count g) :=
  calm_modifyPool fun _ => .of_frames rfl rfl rfl

section

variable (hone : s₀.volume.Single)
  (hnamed : ∀ (h : HandleId) (f : HeapFile), s₀.volume.handles[h]? = some f → f.id = Volume.tableId f.name)

include hone hnamed

/-- What is written is a page of the table of the handle, and as long as its pages are. -/
theorem ends_writePage_calm (h : s₀.Calm s) (hf : (s.pool.frame f).page = some page)
    (hdirty : (s.pool.frame f).dirtyBy ≠ none) (hd : HandleId) :
    (writePage hd page (s.pool.frame f).bytes).Ends s (fun _ s' => s₀.Calm s') fun _ s' => s₀.Calm s' := by
  unfold writePage putPage
  rw [ends_bind, ends_bind]
  refine (ends_file hd).mono (fun file s' h' => ?_) fun _ _ h' => h' ▸ h
  obtain ⟨rfl, hfile⟩ := h'
  rw [ends_bind, ends_get, ends_bind]
  cases hw : s'.volume.writePage hd file page (s'.pool.frame f).bytes with
  | error e => exact h
  | ok v =>
    obtain ⟨rfl, hl⟩ := Volume.written_of_writePage hw
    have hid : page.table = file.id := by
      unfold Volume.writePage at hw
      split at hw
      · assumption
      · cases hw
    exact (h.write hone hnamed hfile hid hl hf hdirty).relog s'.log _

theorem calm_writeBack (f : FrameId) (page : PageId) : Keeps s₀.Calm (writeBack f page) := by
  refine .bind_get fun s hs => ?_
  dsimp only
  split
  · rename_i hin
    obtain ⟨hf, hd⟩ := hin
    have hdirty : (s.pool.frame f).dirtyBy ≠ none := Option.isSome_iff_ne_none.1 hd
    have hwritten : Keeps s₀.Calm (modifyPool fun p => (p.modifyFrame f Frame.written).count fun c =>
        { c with pagesWritten := c.pagesWritten + 1 }) := calm_modifyPool fun p =>
      (Pool.Fades.modifyFrame p f (c := Frame.written) (fun _ _ hx => hx) fun _ hx => absurd rfl hx).trans
        (.of_frames rfl rfl rfl)
    rw [ends_bind]
    refine (ends_resolve_same page.table).mono (fun h s' h' => ?_) fun _ _ h' => h' ▸ hs
    subst h'
    split
    · rw [ends_bind]
      exact (ends_writePage_calm hone hnamed hs hf hdirty h).mono (fun _ s₁ h₁ => hwritten s₁ h₁) fun _ _ h' => h'
    · rw [ends_bind, ends_append, ends_bind, ends_force, ends_bind]
      exact (ends_writePage_calm hone hnamed ((hs.relog _ _).relog _ .forced) hf hdirty h).mono
        (fun _ s₁ h₁ => hwritten s₁ h₁) fun _ _ h' => h'
  · exact hs

theorem calm_evict (f : FrameId) : Keeps s₀.Calm (evict f) := by
  refine .bind_get fun s hs => ?_
  split
  · exact hs
  · rename_i page _
    refine Keeps.bind (calm_writeBack hone hnamed f page) (fun _ => ?_) s hs
    exact calm_modifyPool (g := fun p => (p.unmap f page).count _) fun p => (Pool.Fades.reset p f).trans (.of_frames rfl rfl rfl)

theorem calm_takeVictim : Keeps s₀.Calm takeVictim := by
  refine .bind_get fun s hs => ?_
  cases hv : s.pool.clock.evict s.pool.isPinned with
  | mk victim clock =>
    have hclock : s₀.Calm (s.modifyPool fun p => { p with clock }) := hs.fade (.of_frames rfl rfl rfl)
    simp only [hv]
    rw [ends_bind, ends_modifyPool]
    cases victim with
    | none => exact hclock
    | some f =>
      show ((evict f).orElseDo _ >>= _).Ends _ _ _
      rw [ends_bind, ends_orElseDo]
      exact (calm_evict hone hnamed f _ hclock).mono (fun _ _ h' => h') fun _ _ h' => h'.fade (.of_frames rfl rfl rfl)

theorem calm_takeFrame : Keeps s₀.Calm takeFrame := by
  refine .bind (calm_modifyPool .reclaim) fun _ => .bind_get fun s hs => ?_
  split
  · exact hs.fade (.of_frames rfl rfl rfl)
  · exact calm_takeVictim hone hnamed s hs

theorem calm_load (page : PageId) : Keeps s₀.Calm (load page) := by
  refine .bind (calm_count _) fun _ => .bind (keeps_resolve _) fun hd s hs => ?_
  rw [ends_bind]
  refine ends_readPage_counts.mono (fun bytes s' h' => ?_) fun _ _ h' => h' ▸ hs
  obtain ⟨rfl, hcounts⟩ := h'
  have hcounts := hs.counts hcounts
  refine Keeps.bind (calm_count _) (fun _ => .bind (calm_takeFrame hone hnamed) fun f => ?_) s' hs
  refine .bind (.modifyPool fun s h => h.install f bytes hcounts) fun _ => .bind (fun s h => ?_) fun _ => .pure _
  exact h.relog s.log _

/-- To fetch a page changes no handle, and writes nothing but a page that makes way. -/
theorem calm_fetch (page : PageId) : Keeps s₀.Calm (fetch page) := by
  refine .bind_get fun s hs => ?_
  split
  · rename_i f _
    refine hs.fade ((Pool.Fades.modifyFrame s.pool f (c := fun x => { x with pins := x.pins + 1 }) (fun _ _ hx => hx)
      fun _ _ => rfl).trans (.of_frames rfl rfl rfl))
  · exact calm_load hone hnamed page s hs

end

end Action

end TupleStore
