import TupleStore.Pool.Progress

/-!
# What an action comes to

`Ends x s ok err` : run on the store `s`, the action `x` ends with a result and a store of which `ok` holds,
or with an error and a store of which `err` holds. There is a lemma for every building block of actions, so
an action is taken apart from its first step on (`ends_bind`); a loop over a list keeps what each of its
rounds keeps (`ends_forM`).
-/

namespace TupleStore.Action

set_option autoImplicit false

variable {α β : Type} {s : Store} {ok : α → Store → Prop} {err : Error → Store → Prop}

/-- How an action ends on a store. -/
def Ends (x : Action α) (s : Store) (ok : α → Store → Prop) (err : Error → Store → Prop) : Prop :=
  match x s with
  | .ok a s' => ok a s'
  | .error e s' => err e s'

theorem ends_of_ok {x : Action α} {a : α} {s' : Store} (h : x s = .ok a s') : x.Ends s ok err ↔ ok a s' := by
  rw [Ends, h]

theorem run_get (s : Store) : (get : Action Store) s = .ok s s := rfl

theorem bind_of_ok {x : Action β} {f : β → Action α} {b : β} {s' : Store} (h : x s = .ok b s') :
    (x >>= f) s = f b s' := by
  simp only [bind, EStateM.bind, h]

theorem bind_of_error {x : Action β} {f : β → Action α} {e : Error} {s' : Store} (h : x s = .error e s') :
    (x >>= f) s = .error e s' := by
  simp only [bind, EStateM.bind, h]

theorem file_of_some {h : HandleId} {f : HeapFile} (hf : s.file? h = some f) : file h s = .ok f s := by
  unfold file
  rw [bind_of_ok (run_get s), hf]
  rfl

theorem Ends.mono {x : Action α} {ok' : α → Store → Prop} {err' : Error → Store → Prop} (h : x.Ends s ok err)
    (hok : ∀ a s', ok a s' → ok' a s') (herr : ∀ e s', err e s' → err' e s') : x.Ends s ok' err' := by
  unfold Ends at h ⊢
  split <;> simp_all

theorem Ends.and {x : Action α} {ok' : α → Store → Prop} {err' : Error → Store → Prop} (h : x.Ends s ok err)
    (h' : x.Ends s ok' err') : x.Ends s (fun a s' => ok a s' ∧ ok' a s') fun e s' => err e s' ∧ err' e s' := by
  unfold Ends at h h' ⊢
  split <;> simp_all

/-- What an action comes to is as some condition says, if that is so for its result and for its error. -/
theorem ends_iff {x : Action α} {P : Prop} (h : x.Ends s (fun a s' => ok a s' ↔ P) fun e s' => err e s' ↔ P) :
    x.Ends s ok err ↔ P := by
  unfold Ends at h ⊢
  split <;> simp_all

/-! ## Building blocks -/

@[simp] theorem ends_pure (a : α) : (pure a : Action α).Ends s ok err ↔ ok a s := Iff.rfl

@[simp] theorem ends_throw (e : Error) : (throw e : Action α).Ends s ok err ↔ err e s := Iff.rfl

@[simp] theorem ends_get {ok : Store → Store → Prop} : (get : Action Store).Ends s ok err ↔ ok s s := Iff.rfl

@[simp] theorem ends_modify {ok : PUnit → Store → Prop} (g : Store → Store) :
    (modify g : Action PUnit).Ends s ok err ↔ ok ⟨⟩ (g s) := Iff.rfl

@[simp] theorem ends_bind {x : Action β} {f : β → Action α} :
    (x >>= f).Ends s ok err ↔ x.Ends s (fun b s' => (f b).Ends s' ok err) err := by
  simp only [Ends, bind, EStateM.bind]
  split <;> rename_i h <;> split at h <;> simp_all

@[simp] theorem ends_map {x : Action β} {f : β → α} :
    (f <$> x).Ends s ok err ↔ x.Ends s (fun b s' => ok (f b) s') err := by
  simp only [Ends, Functor.map, EStateM.map]
  split <;> rename_i h <;> split at h <;> simp_all

@[simp] theorem ends_modifyPool {ok : Unit → Store → Prop} (g : Pool → Pool) :
    (modifyPool g).Ends s ok err ↔ ok () (s.modifyPool g) := Iff.rfl

@[simp] theorem ends_note {ok : Unit → Store → Prop} (e : Effect) :
    (note e).Ends s ok err ↔ ok () { s with trace := e :: s.trace } := Iff.rfl

@[simp] theorem ends_append {ok : Unit → Store → Prop} (r : LogRecord) :
    (append r).Ends s ok err ↔ ok () { s with log := s.log.append r, trace := .logged r :: s.trace } := Iff.rfl

@[simp] theorem ends_force {ok : Unit → Store → Prop} :
    force.Ends s ok err ↔ ok () { s with log := s.log.force, trace := .forced :: s.trace } := Iff.rfl

@[simp] theorem ends_ofExcept_ok (a : α) : (ofExcept (.ok a)).Ends s ok err ↔ ok a s := Iff.rfl

@[simp] theorem ends_ofExcept_error (e : Error) : (ofExcept (.error e)).Ends s ok err ↔ err e s := Iff.rfl

@[simp] theorem ends_orElseDo {x : Action α} {cleanup : Store → Store} :
    (x.orElseDo cleanup).Ends s ok err ↔ x.Ends s ok fun e s' => err e (cleanup s') := by
  simp only [Ends, orElseDo]
  split <;> rename_i h <;> split at h <;> simp_all

@[simp] theorem ends_andAlways {x : Action α} {cleanup : Store → Store} :
    (x.andAlways cleanup).Ends s ok err ↔
      x.Ends s (fun a s' => ok a (cleanup s')) fun e s' => err e (cleanup s') := by
  simp only [Ends, andAlways]
  split <;> rename_i h <;> split at h <;> simp_all

@[simp] theorem ends_attempt {x : Action β} {ok : Except Error β → Store → Prop} :
    x.attempt.Ends s ok err ↔ x.Ends s (fun a s' => ok (.ok a) s') fun e s' => ok (.error e) s' := by
  simp only [Ends, attempt]
  split <;> rename_i h <;> split at h <;> simp_all

/-- The file behind a handle. -/
theorem ends_file (h : HandleId) :
    (file h).Ends s (fun f s' => s' = s ∧ s.file? h = some f) fun _ s' => s' = s := by
  unfold file
  rw [ends_bind, ends_get]
  cases hf : s.file? h with
  | some f => exact ⟨rfl, rfl⟩
  | none => rfl

/-- Finding the handle of a table changes nothing. -/
theorem ends_resolve_same (table : TableId) :
    (resolve table).Ends s (fun _ s' => s' = s) fun _ s' => s' = s := by
  unfold resolve
  rw [ends_bind, ends_get, ends_bind]
  cases s.catalog.handle table with
  | error e => rfl
  | ok h =>
    rw [ends_ofExcept_ok, ends_bind]
    refine (ends_file h).mono (fun f s' h' => ?_) fun _ _ h' => h'
    obtain ⟨rfl, -⟩ := h'
    split <;> rfl

/-! ## Loops -/

/-- A loop over a list keeps a property of the store and of what is left of the list, if every round does. -/
theorem ends_forM {γ : Type} {body : γ → Action PUnit} (I : List γ → Store → Prop) (err : Error → Store → Prop)
    (round : ∀ c rest s, I (c :: rest) s → (body c).Ends s (fun _ s' => I rest s') err) :
    ∀ (l : List γ) (s : Store), I l s → (l.forM body).Ends s (fun _ s' => I [] s') err
  | [], _, h => h
  | c :: rest, s, h => by
    rw [List.forM, ends_bind]
    exact (round c rest s h).mono (fun _ s' h' => ends_forM I err round rest s' h') fun _ _ h' => h'

/-- An operation in steps keeps a property of its state and of the store, if every step does. -/
theorem ends_advance {σ : Type} (step : σ → Action (Progress σ α)) (I : σ → Store → Prop) (done : α → Store → Prop)
    (err : Error → Store → Prop)
    (hstep : ∀ x s, I x s → (step x).Ends s
      (fun p s' => match p with
        | .finished a => done a s'
        | .moved x' => I x' s'
        | .blocked x' => I x' s') err) :
    ∀ (n : Nat) (x : σ) (s : Store), I x s → (advance step n x).Ends s
      (fun a s' => match a with
        | .done a => done a s'
        | .waiting x' => I x' s') err
  | 0, _, _, h => h
  | n + 1, x, s, h => by
    rw [advance, ends_bind]
    refine (hstep x s h).mono (fun p s' h' => ?_) fun _ _ h' => h'
    cases p with
    | finished a => exact h'
    | moved x' => exact ends_advance step I done err hstep n x' s' h'
    | blocked x' => exact h'

end TupleStore.Action
