import Sukkula.Config.Visitor
import Sukkula.Wormhole.Mailbox

/-! # Messages without repeated keys

`StrictVisitor` reads a value before it looks whether the key was there. It takes
the texts that the visitor of the settings file takes, and makes the same of them.
-/

namespace Sukkula.Wormhole

open Json Serde Config

def strictVisitor : Visitor where
  visitUnit := some .null
  visitBool b := some (.bool b)
  visitI64 v := some (integer v.toInt)
  visitU64 v := some (integer v.toNat)
  visitF64 bits := some (((fromF64 bits).map .number).getD .null)
  visitStr s := some (.string s)
  nextKey _ _ := true
  nextValue out key v := if key ∈ out.map Prod.fst then none else some (Serde.insert out key v)

theorem once_strictVisitor : strictVisitor.Once where
  unit := rfl
  bool := rfl
  i64 := rfl
  u64 := rfl
  f64 {bits} hfinite := by
    have hsome : fromF64 bits = some (.float ⟨bits, hfinite⟩) := dif_pos hfinite
    change some (((fromF64 bits).map Json.number).getD .null) = (fromF64 bits).map Json.number
    rw [hsome]
    rfl
  str := rfl
  refuses hkey _ _ := if_pos hkey
  takes hkey := ⟨rfl, fun _ => (if_neg hkey).trans (congrArg some (insert_of_not_mem hkey))⟩

section Texts

-- What the deserializer finds in a text. A number that is no finite double is an error.
variable (read : Str → Document) (hfinite : ∀ text, (read text).value.Finite)

include hfinite

/-- The guard reads the tree of a message as the settings file's is read. -/
theorem strictJson_eq (text : Str) :
    strictJson (fun text => fromStr tree (read text)) text = fromStr strictVisitor (read text) :=
  (fromStr_eq_unique once_strictVisitor (hfinite text)).symm

/-- Both visitors take the texts in which no object has a key twice, and read the same, which is
what plain parsing reads unless an object begins with the key of a raw value. -/
theorem visitors_exact (raw : Str → Option Json) (text : Str) :
    (fromStr tree (read text) = none →
      fromStr uniqueVisitor (read text) = none ∧ fromStr strictVisitor (read text) = none ∧
        plain raw (read text) = none) ∧
    ∀ t, fromStr tree (read text) = some t →
      ((fromStr uniqueVisitor (read text)).isSome ↔ ¬ t.Repeats) ∧
      ((fromStr strictVisitor (read text)).isSome ↔ ¬ t.Repeats) ∧
      fromStr uniqueVisitor (read text) = fromStr strictVisitor (read text) ∧
      ∀ v, fromStr uniqueVisitor (read text) = some v → ¬ Marked t →
      plain raw (read text) = some v := by
  have hd := hfinite text
  rw [fromStr_eq_unique once_uniqueVisitor hd, fromStr_eq_unique once_strictVisitor hd]
  constructor
  · intro ht
    rw [ht]
    exact ⟨rfl, rfl, plain_eq_none hd ht⟩
  · intro t ht
    have hsome : (unique t).isSome ↔ ¬ t.Repeats := by
      rw [← unique_eq_none, Option.isSome_iff_ne_none]
    rw [ht]
    refine ⟨hsome, hsome, rfl, ?_⟩
    intro v hv hm
    exact plain_of_unique hd ht hm hv

end Texts

def nestedText : Str := "\x7b\"a\":[1,\x7b\"a\":null\x7d]\x7d".toList

def rawText : Str := "\x7b\"$serde_json::private::RawValue\":\"1\"\x7d".toList

def sampleRead (text : Str) : Document :=
  if text = nestedText then ⟨.map [(['a'], .seq [.u64 1, .map [(['a'], .unit)] true] true)] true,
    true⟩
  else if text = rawText then ⟨.map [(rawValueKey, .str ['1'])] true, true⟩
  else ⟨.error, true⟩

theorem finite_sampleRead (text : Str) : (sampleRead text).value.Finite := by
  unfold sampleRead
  split_ifs
  · simp only [Source.finite_map, Source.finite_seq, List.forall_mem_cons, List.not_mem_nil,
      false_implies, implies_true, and_true]
    constructor
    · rintro bits ⟨⟩
    · rintro bits ⟨⟩
  · simp only [Source.finite_map, List.forall_mem_cons, List.not_mem_nil, false_implies,
      implies_true, and_true]
    rintro bits ⟨⟩
  · rintro bits ⟨⟩

def sampleRaw (text : Str) : Option Json := if text = ['1'] then some (integer 1) else none

theorem visitors_exact_nested : ∃ v, fromStr uniqueVisitor (sampleRead nestedText) = some v ∧
    fromStr strictVisitor (sampleRead nestedText) = some v ∧
    plain sampleRaw (sampleRead nestedText) = some v := by
  obtain ⟨-, hexact⟩ := visitors_exact sampleRead finite_sampleRead sampleRaw nestedText
  have htree : fromStr tree (sampleRead nestedText) =
    some (.object [(['a'], .array [integer 1, .object [(['a'], .null)]])]) := rfl
  have hunmarked : ¬ Marked (.object [(['a'], .array [integer 1, .object [(['a'], .null)]])]) := by
    have hfirst : some ['a'] ≠ some rawValueKey := by decide
    have hone : ¬ Marked (integer 1) := not_marked_of_leaf trivial
    have hnull : ¬ Marked .null := not_marked_of_leaf trivial
    simp [marked_object, marked_array, hfirst, hone, hnull]
  obtain ⟨-, -, hsame, hplain⟩ := hexact _ htree
  exact ⟨_, rfl, hsame.symm.trans rfl, hplain _ rfl hunmarked⟩

/-- The text of a raw value is taken for the value. -/
theorem raw_value_differs : ¬ ∀ (read : Str → Document) (_ : ∀ text, (read text).value.Finite)
    (raw : Str → Option Json) (text : Str) (t v : Json), fromStr tree (read text) = some t →
      fromStr uniqueVisitor (read text) = some v → plain raw (read text) = some v := by
  intro h
  have hobject := h sampleRead finite_sampleRead sampleRaw rawText _ _ rfl rfl
  have hone : plain sampleRaw (sampleRead rawText) = some (integer 1) := rfl
  cases hone.symm.trans hobject

end Sukkula.Wormhole
