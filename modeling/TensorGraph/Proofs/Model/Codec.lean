import TensorGraph.Proofs.Stateful
import TensorGraph.Proofs.Wire.Lawful
import TensorGraph.Model.Basic

/-!
The byte format of models. A model is spelled by its fields in order, an attribute map by the list of its
entries. That spelling obeys the law of a byte format; only from the list of entries to the map is there a step
that forgets something, since a map does not know in which order its entries stood. So what is written is read
back whatever follows it, nothing that is cut short is read, and what is read is what would be written again
exactly where the maps list their keys in ascending order.
-/
namespace TensorGraph

instance : LawfulWire NamedTensor :=
  .ofEquiv ⟨fun t => ((t.name, t.info), t.data), fun p => ⟨p.1.1, p.1.2, p.2⟩, fun _ => rfl, fun _ => rfl⟩
    (fun _ => rfl) (by simp only [Wire.get_pair, map_bind, bind_assoc, pure_bind, map_pure]; rfl)

instance : LawfulWire NamedInfo :=
  .ofEquiv ⟨fun i => (i.name, i.info), fun p => ⟨p.1, p.2⟩, fun _ => rfl, fun _ => rfl⟩
    (fun _ => rfl) (by simp only [Wire.get_pair, map_bind, map_pure]; rfl)

instance : LawfulWire Attribute where
  Fits
    | .int v => Fits v
    | .ints v => Fits v
    | .float v => Fits v
    | .floats v => Fits v
    | .string v => Fits v
    | .strings v => Fits v
    | .tensor v => Fits v
  get_iff := by
    intro bytes rest a
    constructor
    · intro h
      obtain ⟨n, mid, -, rfl, hcase⟩ := Wire.run_tagged_eq_some.1 h
      split at hcase
      case h_8 => cases hcase
      all_goals
        obtain ⟨v, hv, rfl, rfl⟩ := Wire.run_case_eq_some.1 hcase
        exact ⟨hv, (List.append_assoc _ _ _).symm⟩
    · rintro ⟨ha, rfl⟩
      cases a
      all_goals
        refine Wire.run_tagged_eq_some.2 ⟨_, _, ?_, List.append_assoc _ _ _, ?_⟩
        · decide
        · exact Wire.run_case_eq_some.2 ⟨_, ha, rfl, rfl⟩

theorem Storage.fits_of_length {s : Storage} (h : s.length < Word.limit) : Fits s := by
  cases s <;> exact ⟨h, fun _ _ => trivial⟩

/-- Other data of the same name and info. -/
theorem NamedTensor.fits_withData {t : NamedTensor} (h : Fits t) {data : Storage} (hdata : data.length < Word.limit) :
    Fits { t with data } := ⟨h.1, Storage.fits_of_length hdata⟩

/-! ## Spellings -/

/-- The fields of a node as bytes spell them: the attributes are a list of entries. -/
abbrev NodeFields := String × String × String × List String × List String × List (String × Attribute)

namespace Node

/-- The fields of a node, with its attributes in key order. -/
def fields (n : Node) : NodeFields :=
  (n.name, n.opType, n.domain, n.inputs, n.outputs, n.attributes.entries)

/-- The node with the given fields; of two attributes with one key the last stays. -/
def ofFields : NodeFields → Node
  | (name, opType, domain, inputs, outputs, attributes) =>
    ⟨name, opType, domain, inputs, outputs, Dict.ofList attributes⟩

theorem put_eq (n : Node) : put n = put n.fields := by
  have hput : put n = put n.name ++ put n.opType ++ put n.domain ++ put n.inputs ++ put n.outputs ++
      put n.attributes.entries := rfl
  simp only [hput, fields, Wire.put_pair, List.append_assoc]

theorem get_eq : (Wire.get : Reader Node) = ofFields <$> Wire.get := by
  have hnode : (Wire.get : Reader Node) = do
      return ⟨← Wire.get, ← Wire.get, ← Wire.get, ← Wire.get, ← Wire.get, Dict.ofList (← Wire.get)⟩ := by
    simp only [Wire.get, bind_assoc, pure_bind]
  simp only [hnode, Wire.get_pair, map_bind, bind_assoc, pure_bind, map_pure]
  rfl

theorem ofFields_fields (n : Node) : ofFields n.fields = n := by
  simp only [fields, ofFields, Dict.ofList_entries]

theorem fields_ofFields {f : NodeFields} (h : f.2.2.2.2.2.Pairwise fun a b => compare a.1 b.1 = .lt) :
    (ofFields f).fields = f := by
  simp only [fields, ofFields, Dict.entries_ofList h]

theorem fits_fields {f : NodeFields} (h : Fits f) : Fits (ofFields f).fields := by
  obtain ⟨name, opType, domain, inputs, outputs, attributes⟩ := f
  obtain ⟨hname, htype, hdomain, hinputs, houtputs, hlen, hattributes⟩ := h
  obtain ⟨hsub, hle⟩ := Dict.entries_ofList_subset attributes
  exact ⟨hname, htype, hdomain, hinputs, houtputs, Nat.lt_of_le_of_lt hle hlen, fun a ha => hattributes a (hsub a ha)⟩

end Node

namespace Wire

variable {α β : Type} [Wire α] [Wire β]

/-! Items that are spelled by others, each on its own. -/

theorem put_list_eq {g : α → β} (h : ∀ a : α, put a = put (g a)) (l : List α) : put l = put (l.map g) := by
  have hput : ∀ {γ : Type} [Wire γ] (l : List γ), put l = put l.length ++ l.flatMap put := fun _ => rfl
  rw [hput, hput, List.length_map, List.flatMap_map, funext h]

theorem get_list_eq {f : β → α} (h : (Wire.get : Reader α) = f <$> Wire.get) :
    (Wire.get : Reader (List α)) = List.map f <$> Wire.get := by
  have hmany : ∀ n, (getMany n : Reader (List α)) = List.map f <$> getMany n := by
    intro n
    induction n with
    | zero => simp [getMany]
    | succ n ih => simp [getMany, h, ih]
  simp [Wire.get, hmany]

end Wire

/-- The fields of a model as bytes spell them. -/
abbrev ModelFields :=
  UInt32 × String × UInt32 × String × List NodeFields × List NamedInfo × List NamedInfo × List NamedTensor ×
    List NamedInfo

namespace ModelFields

/-- The entries of the attribute maps, node by node, in the order in which they stand. -/
def attributeMaps : ModelFields → List (List (String × Attribute))
  | (_, _, _, _, nodes, _) => nodes.map fun (_, _, _, _, _, attributes) => attributes

end ModelFields

namespace Model

/-- The fields of a model. -/
def fields (m : Model) : ModelFields :=
  (m.irVersion, m.producer, m.opsetVersion, m.name, m.nodes.map Node.fields, m.inputs, m.outputs, m.initializers,
    m.valueInfo)

/-- The model with the given fields. -/
def ofFields : ModelFields → Model
  | (irVersion, producer, opsetVersion, name, nodes, inputs, outputs, initializers, valueInfo) =>
    ⟨irVersion, producer, opsetVersion, name, nodes.map Node.ofFields, inputs, outputs, initializers, valueInfo⟩

theorem put_eq (m : Model) : put m = put m.fields := by
  have hput : put m = put m.irVersion ++ put m.producer ++ put m.opsetVersion ++ put m.name ++ put m.nodes ++
      put m.inputs ++ put m.outputs ++ put m.initializers ++ put m.valueInfo := rfl
  simp only [hput, Wire.put_list_eq Node.put_eq, fields, Wire.put_pair, List.append_assoc]

theorem get_eq : (Wire.get : Reader Model) = ofFields <$> Wire.get := by
  have hmodel : (Wire.get : Reader Model) = do
      return ⟨← Wire.get, ← Wire.get, ← Wire.get, ← Wire.get, ← List.map Node.ofFields <$> Wire.get, ← Wire.get,
        ← Wire.get, ← Wire.get, ← Wire.get⟩ := by
    rw [← Wire.get_list_eq Node.get_eq]
    rfl
  simp only [hmodel, Wire.get_pair, map_bind, bind_assoc, bind_map_left, pure_bind, map_pure]
  rfl

theorem ofFields_fields (m : Model) : ofFields m.fields = m := by
  have hnodes : (m.nodes.map Node.fields).map Node.ofFields = m.nodes := by
    simp only [List.map_map, Function.comp_def, Node.ofFields_fields, List.map_id']
  simp only [fields, ofFields, hnodes]

theorem fields_ofFields {f : ModelFields}
    (h : ∀ l ∈ f.attributeMaps, l.Pairwise fun a b => compare a.1 b.1 = .lt) : (ofFields f).fields = f := by
  obtain ⟨irVersion, producer, opsetVersion, name, nodes, rest⟩ := f
  have hnodes : (nodes.map Node.ofFields).map Node.fields = nodes := by
    rw [List.map_map, List.map_congr_left (g := id), List.map_id]
    intro n hn
    exact Node.fields_ofFields (h _ (List.mem_map.2 ⟨n, hn, rfl⟩))
  simp only [fields, ofFields, hnodes]

theorem ascending_of_mem_attributeMaps {m : Model} {l : List (String × Attribute)}
    (h : l ∈ m.fields.attributeMaps) : l.Pairwise fun a b => compare a.1 b.1 = .lt := by
  obtain ⟨f, hf, rfl⟩ := List.mem_map.1 h
  obtain ⟨n, -, rfl⟩ := List.mem_map.1 hf
  exact n.attributes.ascending

/-! ## Models -/

/-- Whether the words of the format hold every number of the model and every length of its texts and lists: numbers
of 64 bits with a sign, lengths of 64 bits without. -/
def Storable (m : Model) : Prop := Fits m.fields

/-- The magic and the version. -/
def header : Bytes := magic ++ put formatVersion

/-- Behind the header stand the fields of a model whose attribute maps list their keys in strictly ascending
order. -/
def MapsAscend (bytes : Bytes) : Prop :=
  ∃ f rest, (Wire.get : Reader ModelFields).run (bytes.drop header.length) = some (f, rest) ∧
    ∀ l ∈ f.attributeMaps, l.Pairwise fun a b => compare a.1 b.1 = .lt

theorem toBytes_eq (m : Model) : m.toBytes = header ++ put m.fields := by
  rw [toBytes, put_eq, header]

theorem ofBytes_header (body : Bytes) :
    ofBytes (header ++ body) = .orFail (Wire.decode? body) (.model .undecodable) := by
  have hlen : ¬ (header ++ body).length < magic.length + 4 := by
    simp only [List.length_append]
    exact Nat.not_lt.2 (Nat.le_add_right _ _)
  have hmagic : (header ++ body).take magic.length = magic := by
    rw [header, List.append_assoc, List.take_left]
  have hversion : ((header ++ body).drop magic.length).take 4 = put formatVersion := by
    rw [header, List.append_assoc, List.drop_left]
    exact List.take_left' rfl
  have hbody : (header ++ body).drop (magic.length + 4) = body := List.drop_left' rfl
  simp only [ofBytes, hlen, hmagic, hversion, hbody, ne_eq, not_true_eq_false, if_false]
  rfl

theorem header_of_ofBytes {bytes : Bytes} {m : Model} (h : ofBytes bytes = .ok m) :
    ∃ body, bytes = header ++ body := by
  unfold ofBytes at h
  split at h
  · cases h
  · rename_i hlen
    split at h
    · cases h
    · rename_i hmagic
      simp only at h
      split at h
      · cases h
      · rename_i hversion
        simp only [ne_eq, not_not] at hmagic hversion
        refine ⟨bytes.drop (magic.length + 4), ?_⟩
        have hword : (bytes.drop magic.length).take 4 = put formatVersion := by
          rw [← Wire.little_ofLittle ((bytes.drop magic.length).take 4), hversion, List.length_take, List.length_drop,
            min_eq_left (by omega)]
          rfl
        rw [header, ← hmagic, ← hword, List.append_assoc, List.length_take, min_eq_left (by omega), ← List.drop_drop]
        simp only [List.take_append_drop]

/-- What is read is what the fields in front of the bytes, behind the header, make. -/
theorem ofBytes_eq_ok {bytes : Bytes} {m : Model} :
    ofBytes bytes = .ok m ↔ ∃ f rest, Fits f ∧ bytes = header ++ (put f ++ rest) ∧ m = ofFields f := by
  have hdecode : ∀ body : Bytes,
      Wire.decode? body = some m ↔ ∃ f rest, Fits f ∧ body = put f ++ rest ∧ m = ofFields f := by
    intro body
    rw [Wire.decode?, get_eq]
    constructor
    · intro h
      obtain ⟨⟨m', rest⟩, hread, rfl⟩ := Option.map_eq_some_iff.1 h
      obtain ⟨f, hf, rfl⟩ := Wire.run_map_eq_some.1 hread
      obtain ⟨hfits, rfl⟩ := LawfulWire.get_iff.1 hf
      exact ⟨f, rest, hfits, rfl, rfl⟩
    · rintro ⟨f, rest, hf, rfl, rfl⟩
      rw [Wire.run_map_eq_some.2 ⟨f, LawfulWire.get_iff.2 ⟨hf, rfl⟩, rfl⟩]
      rfl
  constructor
  · intro h
    obtain ⟨body, rfl⟩ := header_of_ofBytes h
    rw [ofBytes_header, Outcome.orFail_eq_ok, hdecode] at h
    obtain ⟨f, rest, hf, rfl, rfl⟩ := h
    exact ⟨f, rest, hf, rfl, rfl⟩
  · rintro ⟨f, rest, hf, rfl, rfl⟩
    rw [ofBytes_header, Outcome.orFail_eq_ok, hdecode]
    exact ⟨f, rest, hf, rfl, rfl⟩

theorem ofBytes_toBytes_append {m : Model} (h : m.Storable) (tail : Bytes) :
    ofBytes (m.toBytes ++ tail) = .ok m :=
  ofBytes_eq_ok.2 ⟨m.fields, tail, h, by rw [toBytes_eq, List.append_assoc], (ofFields_fields m).symm⟩

/-- A model that has been read can be stored: of what its nodes spell twice, one is left. -/
theorem storable_of_ofBytes {bytes : Bytes} {m : Model} (h : ofBytes bytes = .ok m) : m.Storable := by
  obtain ⟨f, -, hf, -, rfl⟩ := ofBytes_eq_ok.1 h
  obtain ⟨irVersion, producer, opsetVersion, name, nodes, rest⟩ := f
  obtain ⟨hir, hproducer, hopset, hname, ⟨hlen, hnodes⟩, hrest⟩ := hf
  refine ⟨hir, hproducer, hopset, hname, ⟨?_, fun n hn => ?_⟩, hrest⟩
  · simpa [fields, ofFields] using hlen
  obtain ⟨n', hn', rfl⟩ := List.mem_map.1 hn
  obtain ⟨n₀, hn₀, rfl⟩ := List.mem_map.1 hn'
  exact Node.fits_fields (hnodes n₀ hn₀)

theorem Storable.initializers {m : Model} (h : m.Storable) : Fits m.initializers := h.2.2.2.2.2.2.2.1

theorem Storable.withInitializers {m : Model} (h : m.Storable) {l : List NamedTensor} (hl : Fits l) :
    Storable { m with initializers := l } := by
  obtain ⟨hir, hproducer, hopset, hname, hnodes, hinputs, houtputs, -, hinfos⟩ := h
  exact ⟨hir, hproducer, hopset, hname, hnodes, hinputs, houtputs, hl, hinfos⟩

/-- Of two spellings in front of the same bytes there is only one. -/
theorem fields_unique {f f' : ModelFields} {rest rest' : Bytes} (hf : Fits f) (hf' : Fits f')
    (h : put f ++ rest = put f' ++ rest') : f = f' ∧ rest = rest' := by
  have hread := LawfulWire.get_iff.2 ⟨hf, h.symm⟩
  rw [LawfulWire.get_iff.2 ⟨hf', rfl⟩] at hread
  exact ⟨(congrArg Prod.fst (Option.some.inj hread)).symm, (congrArg Prod.snd (Option.some.inj hread)).symm⟩

/-- No model is read from what was cut short. -/
theorem not_ok_of_cut {m : Model} (h : m.Storable) {bytes cut : Bytes} (hcut : m.toBytes = bytes ++ cut)
    (hne : cut ≠ []) (m' : Model) : ofBytes bytes ≠ .ok m' := by
  intro hok
  obtain ⟨f, rest, hf, rfl, -⟩ := ofBytes_eq_ok.1 hok
  rw [toBytes_eq, List.append_assoc, List.append_assoc] at hcut
  have hput : put m.fields ++ [] = put f ++ (rest ++ cut) := by
    rw [List.append_nil]
    exact List.append_cancel_left hcut
  have hempty := (fields_unique h hf hput).2
  exact hne (List.append_eq_nil_iff.1 hempty.symm).2

/-- How what was cut short is refused: within the header for its length, behind it for what does not follow. -/
theorem ofBytes_of_cut {m : Model} (h : m.Storable) {bytes cut : Bytes} (hcut : m.toBytes = bytes ++ cut)
    (hne : cut ≠ []) :
    ofBytes bytes = .fail (.model (if bytes.length < header.length then .truncated else .undecodable)) := by
  by_cases hlen : bytes.length < header.length
  · rw [if_pos hlen]
    exact if_pos hlen
  · rw [if_neg hlen]
    have hfront : header <+: bytes := by
      refine List.prefix_of_prefix_length_le ⟨put m.fields, (toBytes_eq m).symm⟩ ⟨cut, hcut.symm⟩ ?_
      omega
    obtain ⟨body, rfl⟩ := hfront
    have hnot := not_ok_of_cut h hcut hne
    rw [ofBytes_header] at hnot ⊢
    cases hbody : (Wire.decode? body : Option Model) with
    | none => rfl
    | some m' => exact absurd (by rw [hbody]; rfl) (hnot m')

/-- What is read from maps in key order is what is written. -/
theorem eq_toBytes_append {bytes : Bytes} {m : Model} (h : ofBytes bytes = .ok m) (hmaps : MapsAscend bytes) :
    m.Storable ∧ ∃ tail, bytes = m.toBytes ++ tail := by
  obtain ⟨f, rest, hf, rfl, rfl⟩ := ofBytes_eq_ok.1 h
  obtain ⟨f', rest', hread, hmaps⟩ := hmaps
  rw [List.drop_left, LawfulWire.get_iff] at hread
  obtain ⟨rfl, -⟩ := fields_unique hf hread.1 hread.2
  have hfields := fields_ofFields hmaps
  refine ⟨by rw [Storable, hfields]; exact hf, rest, ?_⟩
  rw [toBytes_eq, hfields, List.append_assoc]

theorem mapsAscend_toBytes {m : Model} (h : m.Storable) (tail : Bytes) : MapsAscend (m.toBytes ++ tail) := by
  refine ⟨m.fields, tail, ?_, fun l => ascending_of_mem_attributeMaps⟩
  rw [toBytes_eq, List.append_assoc, List.drop_left]
  exact LawfulWire.get_iff.2 ⟨h, rfl⟩

/-- The format loses nothing and no written model is the beginning of another: a model that its words hold is read
back whatever follows it, equal bytes mean equal models, every proper beginning is refused, and bytes whose maps
list their keys in ascending order are read exactly if they begin with the model as it is written. -/
theorem codec_lossless_and_prefixFree (m : Model) (hm : m.Storable) :
    ofBytes m.toBytes = .ok m ∧
      (∀ m' : Model, m'.Storable → m'.toBytes = m.toBytes → m' = m) ∧
      (∀ tail, ofBytes (m.toBytes ++ tail) = .ok m) ∧
      (∀ bytes, bytes <+: m.toBytes → bytes ≠ m.toBytes →
        ofBytes bytes = .fail (.model (if bytes.length < header.length then .truncated else .undecodable))) ∧
      ∀ bytes (m' : Model), ofBytes bytes = .ok m' → MapsAscend bytes → ∃ tail, bytes = m'.toBytes ++ tail := by
  have hself : ofBytes m.toBytes = .ok m := by
    simpa using ofBytes_toBytes_append hm []
  refine ⟨hself, ?_, ofBytes_toBytes_append hm, ?_, ?_⟩
  · intro m' hm' heq
    have hother : ofBytes m'.toBytes = .ok m' := by
      simpa using ofBytes_toBytes_append hm' []
    rw [heq, hself] at hother
    exact (Except.ok.inj hother).symm
  · rintro bytes ⟨cut, hcut⟩ hne
    refine ofBytes_of_cut hm hcut.symm ?_
    rintro rfl
    exact hne (by simpa using hcut)
  · intro bytes m' hok hmaps
    exact (eq_toBytes_append hok hmaps).2

/-- A model with one node and two attributes. -/
def sampleModel : Model where
  name := "g"
  nodes := [⟨"n", "Concat", "", ["x", "w"], ["y"],
    .ofList [("b", .tensor ⟨"t", ⟨.int64, [-1]⟩, .i64 [3]⟩), ("a", .ints [-2, 5])]⟩]
  inputs := [⟨"x", ⟨.float, [2]⟩⟩]
  outputs := [⟨"y", ⟨.float, [4]⟩⟩]
  initializers := [⟨"w", ⟨.float, [2]⟩, .f32 [.one, .zero]⟩]
  valueInfo := []

theorem sampleModel_storable : sampleModel.Storable := by
  have hfields : sampleModel.fields =
      (6, "ferrograph", 11, "g", [("n", "Concat", "", ["x", "w"], ["y"],
        [("a", .ints [-2, 5]), ("b", .tensor ⟨"t", ⟨.int64, [-1]⟩, .i64 [3]⟩)])],
        [⟨"x", ⟨.float, [2]⟩⟩], [⟨"y", ⟨.float, [4]⟩⟩], [⟨"w", ⟨.float, [2]⟩, .f32 [.one, .zero]⟩], []) := rfl
  rw [Storable, hfields]
  simp +decide [Fits, or_imp, forall_and]

/-- The sample is read back, also in front of another byte, and refused without its last byte. -/
theorem codec_of_sampleModel :
    sampleModel.Storable ∧ ofBytes sampleModel.toBytes = .ok sampleModel ∧
      (∃ e, ofBytes sampleModel.toBytes.dropLast = .fail (.model e)) ∧
      ∃ tail, sampleModel.toBytes ++ [7] = sampleModel.toBytes ++ tail := by
  obtain ⟨hself, -, htail, hcut, hback⟩ := codec_lossless_and_prefixFree sampleModel sampleModel_storable
  refine ⟨sampleModel_storable, hself, ⟨_, hcut _ (List.dropLast_prefix _) ?_⟩, ?_⟩
  · intro h
    have hlen := congrArg List.length h
    rw [List.length_dropLast] at hlen
    have hpos : 0 < sampleModel.toBytes.length := by
      rw [toBytes_eq, List.length_append]
      exact Nat.add_pos_left (by decide) _
    omega
  · exact hback _ _ (htail [7]) (mapsAscend_toBytes sampleModel_storable [7])

end Model

end TensorGraph
