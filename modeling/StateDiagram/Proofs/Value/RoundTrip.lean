import StateDiagram.Proofs.Json.RoundTrip
import StateDiagram.Value.Persist

/-! Values that are written and read back. A value without floats comes back from its own text as
it was, unless it is nested too deeply to be read. -/
namespace StateDiagram

namespace Features

/-- Each name once, and in order. -/
def Ordered (fs : Features) : Prop :=
  fs.Pairwise fun e f => e.1 < f.1

theorem insert_last {name : String} {fs : Features} (h : ∀ e ∈ fs, e.1 < name) (value : Value) :
    fs.insert name value = fs ++ [(name, value)] := by
  induction fs with
  | nil => rfl
  | cons e fs ih =>
    obtain ⟨he, hfs⟩ := List.forall_mem_cons.1 h
    rw [insert, if_neg (String.ne_of_lt he), if_neg (String.lt_asymm he), ih hfs, List.cons_append]

theorem Ordered.foldl_insert {fs es : Features} (h : Ordered (fs ++ es)) :
    es.foldl (fun fs e => fs.insert e.1 e.2) fs = fs ++ es := by
  induction es generalizing fs with
  | nil => rw [List.foldl_nil, List.append_nil]
  | cons e es ih =>
    have hlast : ∀ d ∈ fs, d.1 < e.1 := fun d hd =>
      (List.pairwise_append.1 h).2.2 d hd e (List.mem_cons_self ..)
    rw [List.foldl_cons, insert_last hlast, ih (by rwa [List.append_assoc, List.singleton_append]),
      List.append_assoc, List.singleton_append]

theorem Ordered.ofList_eq {es : Features} (h : Ordered es) : ofList es = es :=
  @Ordered.foldl_insert [] es h

end Features

namespace Value

/-- A value that holds no floats, and whose maps are in the order of their names. -/
inductive Exact : Value → Prop where
  | nil : Exact .nil
  | bool (b : Bool) : Exact (.bool b)
  | int (n : Int64) : Exact (.int n)
  | string (s : String) : Exact (.string s)
  | list {items : List Value} : (∀ v ∈ items, Exact v) → Exact (.list items)
  | map {entries : Features} : entries.Ordered → (∀ e ∈ entries, Exact e.2) → Exact (.map entries)

theorem itemsToJson_eq (vs : List Value) : itemsToJson vs = vs.map toJson := by
  induction vs with
  | nil => rfl
  | cons v vs ih => rw [itemsToJson, ih, List.map_cons]

theorem entriesToJson_eq (es : List (String × Value)) :
    entriesToJson es = es.map fun e => (some e.1, e.2.toJson) := by
  induction es with
  | nil => rfl
  | cons e es ih => rw [entriesToJson, ih, List.map_cons]

theorem decodeItems?_toJson {vs : List Value} (h : ∀ v ∈ vs, decode? v.toJson = some v) :
    decodeItems? (vs.map toJson) = some vs := by
  induction vs with
  | nil => rfl
  | cons v vs ih =>
    obtain ⟨hv, hvs⟩ := List.forall_mem_cons.1 h
    rw [List.map_cons, decodeItems?, hv, ih hvs]

theorem decodeFields?_toJson {es : List (String × Value)}
    (h : ∀ e ∈ es, decode? e.2.toJson = some e.2) :
    decodeFields? (es.map fun e => (some e.1, e.2.toJson)) = some es := by
  induction es with
  | nil => rfl
  | cons e es ih =>
    obtain ⟨he, hes⟩ := List.forall_mem_cons.1 h
    rw [List.map_cons, decodeFields?, he, ih hes]

theorem sameItems_self {vs : List Value} (h : ∀ v ∈ vs, v.same v = true) :
    sameItems vs vs = true := by
  induction vs with
  | nil => rfl
  | cons v vs ih =>
    obtain ⟨hv, hvs⟩ := List.forall_mem_cons.1 h
    rw [sameItems, hv, ih hvs, Bool.and_self]

theorem sameEntries_self {es : List (String × Value)} (h : ∀ e ∈ es, e.2.same e.2 = true) :
    sameEntries es es = true := by
  induction es with
  | nil => rfl
  | cons e es ih =>
    obtain ⟨he, hes⟩ := List.forall_mem_cons.1 h
    rw [sameEntries, he, ih hes, beq_self_eq_true, Bool.and_self, Bool.and_self]

namespace Exact

variable {v : Value}

theorem exact_toJson (h : v.Exact) : Json.Exact v.toJson := by
  have hfield : ∀ {tag : String} {j : Json}, Json.Exact j →
      Json.Exact (Json.ofFields [(tag, j)]) := fun hj =>
    Json.exact_ofFields fun f hf => List.mem_singleton.1 hf ▸ hj
  induction h with
  | nil => exact .string _
  | bool b => exact hfield (.bool b)
  | int n =>
    have hlow := n.le_toInt
    have hhigh := n.toInt_lt
    exact hfield (.int (by omega) (by omega))
  | string s => exact hfield (.string s)
  | list _ ih =>
    refine hfield (.array fun j hj => ?_)
    rw [itemsToJson_eq] at hj
    obtain ⟨v, hv, rfl⟩ := List.mem_map.1 hj
    exact ih v hv
  | map _ _ ih =>
    rw [toJson, entriesToJson_eq]
    refine hfield (.object (fun f hf => ?_) fun f hf => ?_)
    all_goals obtain ⟨e, he, rfl⟩ := List.mem_map.1 hf
    · rfl
    · exact ih e he

theorem decode?_toJson (h : v.Exact) : decode? v.toJson = some v := by
  induction h with
  | nil => rfl
  | bool b => rfl
  | int n =>
    simp [toJson, decode?, Json.ofFields, ofTag?, Json.int64?, Json.ofInt, Text.int64?_toInt]
  | string s => rfl
  | list _ ih =>
    rw [toJson, itemsToJson_eq]
    simp [decode?, Json.ofFields, decodeItems?_toJson ih]
  | map hordered _ ih =>
    rw [toJson, entriesToJson_eq]
    simp [decode?, Json.ofFields, decodeFields?_toJson ih, hordered.ofList_eq]

theorem same (h : v.Exact) : v.same v = true := by
  induction h with
  | nil => rfl
  | bool b => simp [Value.same]
  | int n => simp [Value.same]
  | string s => simp [Value.same]
  | list _ ih => exact sameItems_self ih
  | map _ _ ih => exact sameEntries_self ih

/-- A value without floats is read back from its own text, and as it was, if and only if the text
is nested less than 128 levels deep. -/
theorem survives_iff (h : v.Exact) : v.survives = true ↔ v.toJson.nesting < 128 := by
  rw [survives, read?, write, Json.read?_compact h.exact_toJson, Option.bind_some, ofJson?]
  by_cases hn : v.toJson.nesting < 128
  · simp [hn, h.decode?_toJson, h.same]
  · simp [hn]

end Exact

end Value

end StateDiagram
