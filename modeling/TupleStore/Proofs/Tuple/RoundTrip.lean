import Mathlib.Data.List.Forall2
import TupleStore.Proofs.Tuple.Images

/-!
# Tuples stored and read back

A tuple is made of values, read from bytes, or made from other tuples, and each of these ways says what types its
values have (`Tuple.Recipe`, `Recipe.types_make?`). Its image depends on the values alone, and so does what is read
back from it:

* `Field.Kept` : what storing leaves of a value. An integer stays as it is, a text is cut to its longest beginning
  that fits;
* `Tuple.writeEach?` : values written one behind the other. That is what writing a tuple comes to
  (`writeEach?_fields`), and it replaces the front of the buffer by the image (`writeInto?_eq`);
* `Tuple.ofBytes?_image` : a tuple read back, `Field.image_clip` : and what it is written as.
-/

namespace TupleStore

set_option autoImplicit false

namespace Utf8

theorem length_encode_toList (s : String) : (encode s.toList).length = s.utf8ByteSize := by
  rw [← String.size_toByteArray, ← String.utf8Encode_toList]
  simp [encode, List.utf8Encode]

theorem clip_clip (bound : Nat) (text : List Char) : clip bound (clip bound text) = clip bound text :=
  clip_eq_self (length_encode_clip bound text)

end Utf8

namespace Field

/-- What storing leaves of a value. -/
inductive Kept : Field → Field → Prop where
  | int (v : Int32) : Kept (.int v) (.int v)
  /-- A text is cut between two of its characters, at the last place within the capacity. -/
  | text {s front : String} (begins : front.toList <+: s.toList) (fits : front.utf8ByteSize ≤ textCapacity)
      (longest : ∀ longer : String, longer.toList <+: s.toList → longer.utf8ByteSize ≤ textCapacity →
        longer.toList <+: front.toList) : Kept (.text s) (.text front)

theorem kept_clip (f : Field) : Kept f f.clip := by
  cases f with
  | int v => exact .int v
  | text s =>
    refine .text (by simpa using Utf8.clip_isPrefix textCapacity s.toList) ?_ fun longer hs hfits => ?_
    · rw [← Utf8.length_encode_toList, String.toList_ofList]
      exact Utf8.length_encode_clip textCapacity s.toList
    · rw [String.toList_ofList]
      exact Utf8.isPrefix_clip hs (by rwa [Utf8.length_encode_toList])

theorem clip_text_eq_iff {s : String} : (text s).clip = text s ↔ s.utf8ByteSize ≤ textCapacity := by
  rw [← Utf8.length_encode_toList]
  constructor
  · intro h
    have hclip : Utf8.clip textCapacity s.toList = s.toList := by
      simpa using congrArg String.toList (Field.text.inj h)
    exact hclip ▸ Utf8.length_encode_clip textCapacity s.toList
  · intro h
    rw [clip, Utf8.clip_eq_self h, String.ofList_toList]

/-- What is read back is written as before. -/
theorem image_clip (f : Field) : f.clip.image = f.image := by
  cases f with
  | int v => rfl
  | text s => simp only [clip, image, String.toList_ofList, Utf8.clip_clip]

end Field

namespace Tuple

variable {t : Tuple} {schema : Schema} {buffer rest : Bytes}

/-! ## Where tuples come from -/

/-- A way to come by a tuple. -/
inductive Recipe where
  | ofFields (schema : Schema) (fields : List Field)
  | ofBytes (schema : Schema) (bytes : Bytes)
  | merge (a b : Recipe)
  | setField (r : Recipe) (i : Nat) (value : Field)
  | withSchema (r : Recipe) (schema : Schema)
  | place (r : Recipe) (recordId : Option RecordId)

namespace Recipe

/-- The tuple. A change that is refused leaves it as it was. -/
def make? : Recipe → Option Tuple
  | ofFields schema fields => (Tuple.ofFields schema fields).toOption
  | ofBytes schema bytes => Tuple.ofBytes? schema bytes
  | merge a b => a.make?.bind fun t => b.make?.map t.merge
  | setField r i value => r.make?.map fun t => (t.setField i value).toOption.getD t
  | withSchema r schema => r.make?.map fun t => (t.withSchema schema).toOption.getD t
  | place r recordId => r.make?.map (Tuple.place · recordId)

/-- The types of its values, read off the recipe. -/
def types : Recipe → List FieldType
  | ofFields schema _ => schema.types
  | ofBytes schema _ => schema.types
  | merge a b => a.types ++ b.types
  | setField r _ _ => r.types
  | withSchema r _ => r.types
  | place r _ => r.types

end Recipe

theorem schema_setField (t : Tuple) (i : Nat) (value : Field) :
    ((t.setField i value).toOption.getD t).schema = t.schema := by
  unfold setField
  split <;> rfl

theorem types_withSchema (t : Tuple) (schema : Schema) :
    ((t.withSchema schema).toOption.getD t).schema.types = t.schema.types := by
  unfold withSchema
  split
  · next h => exact h
  · rfl

/-- Whatever a tuple is made of, its schema has the types of the recipe. -/
theorem Recipe.types_make? {r : Recipe} (h : r.make? = some t) : t.schema.types = r.types := by
  induction r generalizing t with
  | ofFields schema fields =>
    rw [make?, Tuple.ofFields] at h
    split at h
    · cases h
      rfl
    · cases h
  | ofBytes schema bytes =>
    rw [make?, ofBytes?, Option.ite_none_right_eq_some] at h
    cases h.2
    rfl
  | merge a b iha ihb =>
    obtain ⟨ta, ha, h⟩ := Option.bind_eq_some_iff.1 h
    obtain ⟨tb, hb, rfl⟩ := Option.map_eq_some_iff.1 h
    exact (Schema.types_merge ..).trans (by rw [iha ha, ihb hb, types])
  | setField r i value ih =>
    obtain ⟨u, hu, rfl⟩ := Option.map_eq_some_iff.1 h
    exact (congrArg Schema.types (schema_setField u i value)).trans (ih hu)
  | withSchema r schema ih =>
    obtain ⟨u, hu, rfl⟩ := Option.map_eq_some_iff.1 h
    exact (types_withSchema u schema).trans (ih hu)
  | place r recordId ih =>
    obtain ⟨u, hu, rfl⟩ := Option.map_eq_some_iff.1 h
    exact (ih hu : u.schema.types = r.types)

/-! ## Writing -/

/-- The buffer with values written one behind the other, each into a window as wide as its type. -/
def writeEach? : List Field → Bytes → Option Bytes
  | [], buffer => some buffer
  | f :: fields, buffer =>
    (f.writeInto? (buffer.take f.type.width)).bind fun front =>
      (writeEach? fields (buffer.drop f.type.width)).map (front ++ ·)

theorem writeInto?_eq (h : t.schema.width ≤ buffer.length) :
    t.writeInto? buffer = some (t.image ++ buffer.drop t.schema.width) := by
  rw [writeInto?, if_pos h, Bytes.overlay, length_image, Nat.zero_add, List.take_zero, List.nil_append]

theorem writeEach?_eq (fields : List Field) (buffer : Bytes) : writeEach? fields buffer =
    if (fields.flatMap Field.image).length ≤ buffer.length then
      some (fields.flatMap Field.image ++ buffer.drop (fields.flatMap Field.image).length) else none := by
  induction fields generalizing buffer with
  | nil => simp [writeEach?]
  | cons f fields ih =>
    rw [writeEach?, Field.writeInto?, ih, List.flatMap_cons, List.length_append, f.length_image, List.length_take,
      List.length_drop]
    by_cases hf : f.type.width ≤ buffer.length
    · rw [if_pos (by omega), Option.bind_some]
      by_cases hall : f.type.width + (fields.flatMap Field.image).length ≤ buffer.length
      · rw [if_pos (by omega), if_pos hall, Option.map_some, Bytes.overlay, List.drop_drop]
        simp
      · rw [if_neg (by omega), if_neg hall, Option.map_none]
    · rw [if_neg (by omega), Option.bind_none, if_neg (by omega)]

/-- Writing a tuple is writing its values one behind the other. -/
theorem writeEach?_fields (t : Tuple) (buffer : Bytes) : writeEach? t.fields buffer = t.writeInto? buffer := by
  rw [writeEach?_eq]
  change (if t.image.length ≤ buffer.length then some (t.image ++ buffer.drop t.image.length) else none) = _
  rw [length_image]
  split
  · next h => exact (writeInto?_eq h).symm
  · next h => rw [writeInto?, if_neg h]

/-! ## Reading back -/

theorem decodeFields_append (ts : List FieldType) {bytes rest : Bytes}
    (h : bytes.length = ts.foldr (fun t n => t.width + n) 0) : decodeFields ts (bytes ++ rest) = decodeFields ts bytes := by
  induction ts generalizing bytes with
  | nil => rfl
  | cons type ts ih =>
    rw [List.foldr_cons] at h
    rw [decodeFields, decodeFields, List.take_append_of_le_length (by omega), List.drop_append_of_le_length (by omega),
      ih (by rw [List.length_drop]; omega)]

theorem ofBytes?_image (h : schema.Agrees t.schema) (rest : Bytes) : ∃ back, ofBytes? schema (t.image ++ rest) = some back ∧
    back.schema = schema ∧ back.recordId = none ∧ back.fields = t.fields.map Field.clip := by
  have hwidth : t.image.length = schema.width := t.length_image.trans h.width_eq.symm
  refine ⟨ofBytes schema (t.image ++ rest) none, ?_, rfl, rfl, ?_⟩
  · rw [ofBytes?, if_pos (by rw [List.length_append]; omega)]
  · exact (decodeFields_append schema.types hwidth).trans (decodeFields_image h.symm)

theorem image_of_clip {back : Tuple} (h : back.fields = t.fields.map Field.clip) : back.image = t.image := by
  rw [image, image, h, List.flatMap_map]
  exact congrArg (List.flatMap · t.fields) (funext Field.image_clip)

theorem map_clip_eq_iff {fields : List Field} :
    fields.map Field.clip = fields ↔ ∀ s, Field.text s ∈ fields → s.utf8ByteSize ≤ textCapacity := by
  have hself : fields.map Field.clip = fields ↔ ∀ f ∈ fields, f.clip = f := by
    simpa using List.map_inj_left (f := Field.clip) (g := id) (l := fields)
  rw [hself]
  constructor
  · exact fun h s hs => Field.clip_text_eq_iff.1 (h _ hs)
  · intro h f hf
    cases f with
    | int v => rfl
    | text s => exact Field.clip_text_eq_iff.2 (h s hf)

/-! ## The whole way -/

/-- A tuple, however it was made, has values of the types of its schema. Written over a buffer that is long enough, it
replaces just the front of it, by an image in which nothing of the old content is left. Reading that image brings
back every value as storing leaves it, so the same tuple unless a text is too long, and what is read is written as
the same image. The image of two tuples merged is that of the one and then that of the other. -/
theorem roundTrip {r : Recipe} (h : r.make? = some t) :
    t.schema.types = r.types ∧ t.fields.map Field.type = r.types ∧ t.image.length = t.schema.width ∧
    (∀ buffer : Bytes, t.schema.width ≤ buffer.length →
      t.writeInto? buffer = some (t.image ++ buffer.drop t.schema.width) ∧
      writeEach? t.fields buffer = some (t.image ++ buffer.drop t.schema.width)) ∧
    (∀ (schema : Schema) (rest : Bytes), schema.Agrees t.schema →
      ∃ back, ofBytes? schema (t.image ++ rest) = some back ∧ back.schema = schema ∧ back.recordId = none ∧
        List.Forall₂ Field.Kept t.fields back.fields ∧
        (back.same (t.place none) = true ↔ ∀ s, Field.text s ∈ t.fields → s.utf8ByteSize ≤ textCapacity) ∧
        back.image = t.image) ∧
    ∀ u : Tuple, (t.merge u).image = t.image ++ u.image := by
  have htypes := Recipe.types_make? h
  refine ⟨htypes, t.conforms.trans htypes, t.length_image, fun buffer hroom => ⟨writeInto?_eq hroom, ?_⟩,
    fun schema rest hagrees => ?_, t.image_merge⟩
  · exact (writeEach?_fields t buffer).trans (writeInto?_eq hroom)
  · obtain ⟨back, hback, hschema, hnone, hfields⟩ := ofBytes?_image hagrees rest
    refine ⟨back, hback, hschema, hnone, ?_, ?_, image_of_clip hfields⟩
    · rw [hfields, List.forall₂_map_right_iff]
      exact List.forall₂_same.2 fun f _ => f.kept_clip
    · rw [← map_clip_eq_iff, same]
      simp [place, hschema, hnone, hfields, hagrees]

/-- A tuple merged of two, with a text set into it that has one octet too many, in the middle of a character: what
is read back has the 127 octets before that character. -/
theorem roundTrip_long_text : let long := String.ofList (List.replicate 127 'a' ++ ['é'])
    let r : Recipe := .setField
      (.merge (.ofFields ⟨[⟨.text, none⟩]⟩ [.text "b"]) (.ofFields ⟨[⟨.int, some "n"⟩]⟩ [.int (-2)])) 0 (.text long)
    ∃ t, r.make? = some t ∧ t.fields = [.text long, .int (-2)] ∧
      (∀ buffer : Bytes, 136 ≤ buffer.length → t.writeInto? buffer = some (t.image ++ buffer.drop 136)) ∧
      ∃ back, ofBytes? t.schema (t.image ++ [7]) = some back ∧
        back.fields = [.text (String.ofList (List.replicate 127 'a')), .int (-2)] ∧ back.same t = false ∧
        back.image = t.image := by
  intro long r
  have hmake : ∃ t, r.make? = some t ∧ t.fields = [.text long, .int (-2)] ∧ t.recordId = none ∧ t.schema.width = 136 :=
    ⟨_, rfl, rfl, rfl, rfl⟩
  obtain ⟨t, ht, hfields, hnone, hwidth⟩ := hmake
  obtain ⟨-, -, -, hwrite, hread, -⟩ := roundTrip ht
  obtain ⟨back, hback, -, -, -, hsame, himage⟩ := hread t.schema [7] rfl
  refine ⟨t, ht, hfields, fun buffer h => ?_, back, hback, ?_, ?_, himage⟩
  · have := (hwrite buffer (by omega)).1
    rwa [hwidth] at this
  · have hread : ((r.make?.bind fun t => ofBytes? t.schema (t.image ++ [7])).map Tuple.fields) =
        some [.text (String.ofList (List.replicate 127 'a')), .int (-2)] := by decide +kernel
    rw [ht, Option.bind_some, hback] at hread
    exact Option.some.inj hread
  · have hlong : ¬long.utf8ByteSize ≤ textCapacity := by decide +kernel
    have hplace : t.place none = t := by rw [place, ← hnone]
    rw [hplace] at hsame
    exact Bool.eq_false_iff.2 fun h => hlong (hsame.1 h long (by simp [hfields]))

end Tuple

end TupleStore
