import TensorGraph.Proofs.Model.Calls
import TensorGraph.Proofs.Model.Codec

/-!
Models that were built and are read back. Import takes the weights first, then the inputs, then the nodes in order;
each tensor finds those that it reads already there, with the infos that they had in the builder. So import accepts
every model that can be built, and the graph has the ops and tensors that the calls asked for.
-/
namespace TensorGraph

namespace OpKind

/-- The names of the attributes that kinds are written with. -/
def attributeNames : List String :=
  ["scale", "min", "max", "axis", "axes", "keepdims", "shape", "perm", "starts", "ends", "pads", "value"]

/-- A node stands for a kind if it has the kind's type and agrees with it on the attributes that kinds may have. -/
theorem ofNode_of_attributes {kind : OpKind} (hkind : kind.inModels = true) {n : Node} (htype : n.opType = kind.typeName)
    (hread : ∀ name ∈ attributeNames, n.attributes.get? name = kind.attributes.get? name) : ofNode n = .ok kind := by
  simp only [attributeNames, List.mem_cons, List.not_mem_nil, or_false, forall_eq_or_imp, forall_eq] at hread
  rw [ofNode, htype]
  cases kind with
  | unary f =>
    cases f with
    | scale factor =>
      simp [typeName, Unary.typeName, Node.float?, hread, attributes, Dict.ofList, Dict.get?_insert]
    | clip min max =>
      simp [typeName, Unary.typeName, Node.float?, hread, attributes, Dict.ofList, Dict.get?_insert]
    | _ => rfl
  | binary f => cases f <;> rfl
  | softmax axis | concat axis | gather axis | scatter axis =>
    simp [typeName, Node.int?, hread, attributes, Dict.ofList, Dict.get?_insert]
  | reduceSum axes keepDims =>
    cases axes <;> cases keepDims <;>
      simp [typeName, Node.int?, Node.ints?, hread, attributes, Dict.ofList, Dict.get?_insert]
  | reshape shape =>
    simp [typeName, requiredInts, Node.ints?, hread, attributes, Dict.ofList, Dict.get?_insert, Outcome.orFail]
  | transpose perm =>
    simp [typeName, requiredInts, Node.ints?, hread, attributes, Dict.ofList, Dict.get?_insert, Outcome.orFail]
  | slice starts ends axes =>
    have hstarts : requiredInts n "starts" = .ok starts := by
      simp [requiredInts, Node.ints?, hread, attributes, Dict.ofList, Dict.get?_insert, Outcome.orFail]
    have hends : requiredInts n "ends" = .ok ends := by
      simp [requiredInts, Node.ints?, hread, attributes, Dict.ofList, Dict.get?_insert, Outcome.orFail]
    have haxes : requiredInts n "axes" = .ok axes := by
      simp [requiredInts, Node.ints?, hread, attributes, Dict.ofList, Dict.get?_insert, Outcome.orFail]
    simp only [typeName, hstarts, hends, haxes]
    rfl
  | pad pads value =>
    simp [typeName, requiredInts, Node.ints?, Node.float?, hread, attributes, Dict.ofList, Dict.get?_insert,
      Outcome.orFail]
  | identity | matMul | sum => rfl
  | _ => cases hkind

theorem typeName_ne_constant (kind : OpKind) : kind.typeName ≠ "Constant" := by
  cases kind with
  | unary f | binary f | unaryGrad f | operandGrad f => cases f <;> simp [typeName, Unary.typeName, Binary.typeName, UnaryGrad.typeName, OperandGrad.typeName]
  | _ => simp [typeName]

/-- No kind is written with an attribute under which something is noted. -/
theorem attributes_get?_eq_none (kind : OpKind) {name : String} (h : name ∉ attributeNames) :
    kind.attributes.get? name = none := by
  simp only [attributeNames, List.mem_cons, List.not_mem_nil, or_false, not_or, eq_comm (a := name)] at h
  unfold attributes
  split
  case h_7 axes keepDims => cases axes <;> simp [Dict.ofList, Dict.get?_insert, h]
  all_goals simp [Dict.ofList, Dict.get?_insert, h]

end OpKind

/-! ## Additions that succeed -/

namespace Graph

variable {g : Graph}

theorem addTensor_of_free {id : TensorId} (h : g.tensor? id = none) (info : TensorInfo) (type : TensorType)
    (data : Option HostTensor) :
    g.addTensor id info type data = .ok
      { g with
        streams := if type = .stream then g.streams ++ [id] else g.streams
        tensors := g.tensors.insert id { id, info, type, data } } := by
  rw [addTensor, hasTensor_eq_false_iff.2 h]
  rfl

theorem importOp_of_addOp {n : Node} {kind : OpKind} {id : OpId} {added : Graph} (hkind : OpKind.ofNode n = .ok kind)
    (hinputs : ∀ i ∈ n.inputs, ∃ x, g.tensor? i = some x)
    (hadd : g.addOp kind n.inputs n.outputs .forward = .ok (id, added)) :
    g.importOp n = .ok (added.modifyOp id fun op =>
      { op with
        name := if n.name.isEmpty then op.name else n.name
        virtualGraph := n.int? virtualGraphAttribute
        excluded := ((n.strings? excludedAttribute).map SortedSet.ofList).getD op.excluded }) := by
  have hfound : (n.inputs.find? fun i => !g.hasTensor i) = none := by
    rw [List.find?_eq_none]
    intro i hi
    simp [hasTensor_iff.2 (hinputs i hi)]
  rw [importOp, hkind]
  simp only [bind, Except.bind, hfound, hadd]
  rfl

end Graph

namespace Builder

variable {infos : Dict TensorId TensorInfo} {log done : List Entry} {e : Entry} {g : Graph}

/-! ## Nodes as they are read -/

namespace Entry

/-- The op that is made of the entry, under its number. -/
def op? (e : Entry) : Option (OpId → Op) :=
  match e.origin with
  | .op kind operands => some fun id =>
    { id, kind, name := e.id, inputs := operands, outputs := [e.id], phase := .forward,
      virtualGraph := e.virtualGraph, excluded := .ofList (e.excluded.getD []) }
  | _ => none

theorem get?_annotated_of_ne (e : Entry) (d : Dict String Attribute) {name : String}
    (hplaced : name ≠ Graph.virtualGraphAttribute) (hexcluded : name ≠ Graph.excludedAttribute) :
    (e.annotated d).get? name = d.get? name := by
  unfold annotated
  cases e.virtualGraph <;> cases e.excluded <;> simp [Dict.get?_insert, hplaced.symm, hexcluded.symm]

theorem get?_annotated_virtualGraph (e : Entry) {d : Dict String Attribute}
    (hd : d.get? Graph.virtualGraphAttribute = none) :
    (e.annotated d).get? Graph.virtualGraphAttribute = e.virtualGraph.map .int := by
  have hne : Graph.excludedAttribute ≠ Graph.virtualGraphAttribute := by decide
  unfold annotated
  cases e.virtualGraph <;> cases e.excluded <;> simp [Dict.get?_insert, hne, hd]

theorem get?_annotated_excluded (e : Entry) {d : Dict String Attribute}
    (hd : d.get? Graph.excludedAttribute = none) :
    (e.annotated d).get? Graph.excludedAttribute = e.excluded.map .strings := by
  have hne : Graph.virtualGraphAttribute ≠ Graph.excludedAttribute := by decide
  unfold annotated
  cases e.virtualGraph <;> cases e.excluded <;> simp [Dict.get?_insert, hne, hd]

/-! An entry stands for a weight, for an input or for a node. -/

theorem input?_eq_none_of_initializer? (h : e.initializer?.isSome = true) : e.input? = none := by
  unfold initializer? at h
  unfold input?
  cases horigin : e.origin <;> simp_all

theorem node?_eq_none_iff : e.node? = none ↔ e.initializer?.isSome = true ∨ e.input?.isSome = true := by
  unfold node? initializer? input?
  cases e.origin <;> simp

theorem op?_of_node?_eq_none (h : e.node? = none) : e.op? = none := by
  unfold node? at h
  unfold op?
  cases horigin : e.origin <;> simp_all

theorem operands_of_node?_eq_none (h : e.node? = none) : e.origin.operands = [] := by
  unfold node? at h
  cases horigin : e.origin <;> simp_all [Origin.operands]

theorem ofNode_of_op? {n : Node} {kind : OpKind} {operands : List TensorId} (horigin : e.origin = .op kind operands)
    (hkind : kind.inModels = true) (hn : e.node? = some n) : OpKind.ofNode n = .ok kind := by
  have hplain : ∀ name ∈ OpKind.attributeNames,
      name ≠ Graph.virtualGraphAttribute ∧ name ≠ Graph.excludedAttribute := by decide
  unfold node? at hn
  rw [horigin] at hn
  cases hn
  refine OpKind.ofNode_of_attributes hkind rfl fun name hname => ?_
  exact get?_annotated_of_ne e _ (hplain name hname).1 (hplain name hname).2

end Entry

/-! ## Tensors and ops that were imported -/

/-- The graph holds the tensors of the entries, with their infos, types and values, and no others, and the ops of the
entries in their order. -/
structure Imported (infos : Dict TensorId TensorInfo) (done : List Entry) (g : Graph) : Prop where
  has : ∀ e ∈ done, ∃ x, g.tensor? e.id = some x ∧ infos.get? e.id = some x.info ∧ x.type = e.origin.type ∧
    x.data = e.origin.data
  known : ∀ id x, g.tensor? id = some x → id ∈ done.map (·.id)
  ops : ∀ k, g.op? k = ((done.filterMap Entry.op?)[k]?).map fun op => op k
  nextOp : g.nextOp = (done.filterMap Entry.op?).length

/-- What import needs of the entry that comes next. -/
structure Ready (infos : Dict TensorId TensorInfo) (done : List Entry) (e : Entry) : Prop where
  fits : e.Fits infos
  known : ∃ info, infos.get? e.id = some info
  new : e.id ∉ done.map (·.id)
  reads : ∀ i ∈ e.origin.operands, i ∈ done.map (·.id)

/-- A tensor as a model lists it. -/
def listed (infos : Dict TensorId TensorInfo) (id : TensorId) : NamedInfo := ⟨id, (infos.get? id).getD default⟩

namespace Imported

theorem empty : Imported infos [] Graph.empty := by
  refine ⟨by simp, ?_, ?_, rfl⟩
  · intro id x h
    cases h
  · intro k
    rfl

theorem tensor?_eq_none (h : Imported infos done g) (hnew : e.id ∉ done.map (·.id)) : g.tensor? e.id = none := by
  rw [Option.eq_none_iff_forall_ne_some]
  exact fun x hx => hnew (h.known e.id x hx)

theorem info?_eq (h : Imported infos done g) {i : TensorId} (hi : i ∈ done.map (·.id)) : g.info? i = infos.get? i := by
  obtain ⟨e, he, rfl⟩ := List.mem_map.1 hi
  obtain ⟨x, hx, hinfo, -⟩ := h.has e he
  rw [Graph.info?, hx, hinfo, Option.map_some]

/-- A tensor that is not computed goes behind the others. -/
theorem addTensor (h : Imported infos done g) (hnew : e.id ∉ done.map (·.id)) (hop : e.op? = none) {info : TensorInfo}
    (hinfo : infos.get? e.id = some info) :
    ∃ g', g.addTensor e.id info e.origin.type e.origin.data = .ok g' ∧ Imported infos (done ++ [e]) g' := by
  have hfree := h.tensor?_eq_none hnew
  refine ⟨_, Graph.addTensor_of_free hfree info _ _, fun e' he' => ?_, fun id x hx => ?_, fun k => ?_, ?_⟩
  · rcases List.mem_append.1 he' with he' | he'
    · obtain ⟨x, hx, hrest⟩ := h.has e' he'
      exact ⟨x, Dict.get?_insert_of_free hfree hx, hrest⟩
    · rw [List.mem_singleton] at he'
      subst he'
      exact ⟨_, (Dict.get?_insert ..).trans (if_pos rfl), hinfo, rfl, rfl⟩
  · rw [List.map_append, List.map_singleton, List.mem_append, List.mem_singleton]
    have hx' : (if e.id = id then _ else g.tensor? id) = some x := (Dict.get?_insert ..).symm.trans hx
    split at hx'
    · rename_i heq
      exact .inr heq.symm
    · exact .inl (h.known id x hx')
  · rw [List.filterMap_append, List.filterMap_cons, hop, List.filterMap_nil, List.append_nil]
    exact h.ops k
  · rw [List.filterMap_append, List.filterMap_cons, hop, List.filterMap_nil, List.append_nil]
    exact h.nextOp

/-- A computed tensor goes behind the others, and its op behind the other ops. -/
theorem addedOp (h : Imported infos done g) (hnew : e.id ∉ done.map (·.id)) {kind : OpKind} {operands : List TensorId}
    (horigin : e.origin = .op kind operands) {info : TensorInfo} (hinfo : infos.get? e.id = some info) {added : Graph}
    (hadded : Graph.AddedOp g kind operands e.id .forward info added) {finish : Op → Op} {op : OpId → Op}
    (hop : e.op? = some op)
    (hfinish : ∀ id, finish { id, kind, name := e.id, inputs := operands, outputs := [e.id], phase := .forward } = op id) :
    Imported infos (done ++ [e]) (added.modifyOp g.nextOp finish) := by
  have hops : (done ++ [e]).filterMap Entry.op? = done.filterMap Entry.op? ++ [op] := by
    rw [List.filterMap_append, List.filterMap_cons, hop, List.filterMap_nil]
  refine ⟨fun e' he' => ?_, fun id x hx => ?_, fun k => ?_, ?_⟩
  · rw [Graph.tensor?_modifyOp]
    rcases List.mem_append.1 he' with he' | he'
    · obtain ⟨x, hx, hinfo', htype, hdata⟩ := h.has e' he'
      have hne : e'.id ≠ e.id := fun heq => hnew (heq ▸ List.mem_map_of_mem he')
      rw [hadded.tensor?_eq, if_neg hne, hx]
      refine ⟨_, rfl, ?_⟩
      split <;> exact ⟨hinfo', htype, hdata⟩
    · rw [List.mem_singleton] at he'
      subst he'
      rw [hadded.tensor?_eq, if_pos rfl, h.tensor?_eq_none hnew, horigin]
      exact ⟨_, rfl, hinfo, rfl, rfl⟩
  · rw [List.map_append, List.map_singleton, List.mem_append, List.mem_singleton]
    rcases hadded.lookup hx with ⟨y, hy, -⟩ | ⟨-, heq, -⟩
    · exact .inl (h.known id y hy)
    · exact .inr heq
  · rw [hops, Graph.op?_modifyOp, hadded.op?_eq, h.nextOp, List.getElem?_append]
    by_cases hk : k = (done.filterMap Entry.op?).length
    · simp [hk, hfinish]
    · rw [if_neg (Ne.symm hk), if_neg hk, h.ops]
      split
      · rfl
      · rename_i hlt
        have hlen : (done.filterMap Entry.op?).length < k :=
          Nat.lt_of_le_of_ne (Nat.not_lt.1 hlt) (Ne.symm hk)
        have hpast : [op].length ≤ k - (done.filterMap Entry.op?).length := Nat.sub_pos_of_lt hlen
        rw [List.getElem?_eq_none hlen.le, List.getElem?_eq_none hpast]
  · rw [hops, List.length_append, List.length_singleton, ← h.nextOp]
    exact hadded.nextOp_eq

/-- An op that was built is imported, with the infos that its operands have. -/
theorem importOp (h : Imported infos done g) (hready : Ready infos done e) {kind : OpKind} {operands : List TensorId}
    (horigin : e.origin = .op kind operands) {n : Node} (hn : e.node? = some n) :
    ∃ g', g.importOp n = .ok g' ∧ Imported infos (done ++ [e]) g' := by
  have hfits := hready.fits
  have hreads := hready.reads
  unfold Entry.Fits at hfits
  rw [horigin] at hfits hreads
  obtain ⟨hkind, known, info, hread, hinfer, hinfo⟩ := hfits
  have hofNode := Entry.ofNode_of_op? horigin hkind hn
  have hknown : operands.mapM g.info = .ok known := by
    refine Outcome.mapM_eq_ok.2 ((List.forall₂_and_left _ _).2 ⟨hreads, hread⟩ |>.imp fun i k hik => ?_)
    rw [Graph.info, h.info?_eq hik.1, hik.2]
    rfl
  have hn' : n = ⟨e.id, kind.typeName, "", operands, [e.id], e.annotated kind.attributes⟩ := by
    rw [Entry.node?, horigin] at hn
    exact (Option.some.inj hn).symm
  obtain ⟨added, hadd, hadded⟩ := Graph.addOp_of_infers hknown hinfer (h.tensor?_eq_none hready.new) .forward
  subst hn'
  have hheld : ∀ i ∈ operands, ∃ x, g.tensor? i = some x := by
    intro i hi
    obtain ⟨e', he', rfl⟩ := List.mem_map.1 (hreads i hi)
    obtain ⟨x, hx, -⟩ := h.has e' he'
    exact ⟨x, hx⟩
  refine ⟨_, Graph.importOp_of_addOp hofNode hheld hadd, ?_⟩
  refine h.addedOp hready.new horigin hinfo hadded (by rw [Entry.op?, horigin]) fun id => ?_
  have hplaced := e.get?_annotated_virtualGraph (kind.attributes_get?_eq_none (by decide))
  have hexcluded := e.get?_annotated_excluded (kind.attributes_get?_eq_none (by decide))
  simp only [Node.int?, Node.strings?, hplaced, hexcluded]
  have hnone : (SortedSet.ofList [] : SortedSet String) = .empty := rfl
  cases e.virtualGraph <;> cases e.excluded <;> simp [hnone]

theorem importConstant (h : Imported infos done g) (hready : Ready infos done e) {v : HostTensor}
    (horigin : e.origin = .constant v) {n : Node} (hn : e.node? = some n) :
    ∃ g', g.importConstant n = .ok g' ∧ Imported infos (done ++ [e]) g' := by
  have hfits := hready.fits
  unfold Entry.Fits at hfits
  rw [horigin] at hfits
  rw [Entry.node?, horigin] at hn
  cases hn
  have hvalue : (e.annotated (.ofList [("value", .tensor ⟨e.id, v.info, v.data⟩)])).get? "value" =
      some (.tensor ⟨e.id, v.info, v.data⟩) := by
    rw [Entry.get?_annotated_of_ne e _ (by decide) (by decide)]
    simp [Dict.ofList, Dict.get?_insert]
  obtain ⟨g', hg', himported⟩ := h.addTensor hready.new (by rw [Entry.op?, horigin]) hfits.2
  refine ⟨g', ?_, himported⟩
  rw [horigin] at hg'
  rw [← hg', Graph.importConstant, Node.tensor?, hvalue]
  simp only [Outcome.orFail, bind, Except.bind, List.head?_cons, hfits.1.eq]
  rfl

theorem importNode (h : Imported infos done g) (hready : Ready infos done e) {n : Node} (hn : e.node? = some n) :
    ∃ g', g.importNode n = .ok g' ∧ Imported infos (done ++ [e]) g' := by
  unfold Graph.importNode
  cases horigin : e.origin with
  | input | weight v =>
    rw [Entry.node?, horigin] at hn
    cases hn
  | constant v =>
    rw [if_pos]
    · exact h.importConstant hready horigin hn
    · rw [Entry.node?, horigin] at hn
      cases hn
      rfl
  | op kind operands =>
    rw [if_neg]
    · exact h.importOp hready horigin hn
    · rw [Entry.node?, horigin] at hn
      cases hn
      exact kind.typeName_ne_constant

theorem importInitializer (h : Imported infos done g) (hready : Ready infos done e) {t : NamedTensor}
    (ht : e.initializer? = some t) : ∃ g', g.importInitializer t = .ok g' ∧ Imported infos (done ++ [e]) g' := by
  have hfits := hready.fits
  unfold Entry.Fits at hfits
  unfold Entry.initializer? at ht
  split at ht
  · rename_i v horigin
    cases ht
    rw [horigin] at hfits
    obtain ⟨g', hg', himported⟩ := h.addTensor hready.new (by rw [Entry.op?, horigin]) hfits.2
    rw [horigin] at hg'
    refine ⟨g', ?_, himported⟩
    rw [← hg', Graph.importInitializer, hfits.1.eq]
    rfl
  · cases ht

theorem importInput (h : Imported infos done g) (hready : Ready infos done e) {input : NamedInfo}
    (hinput : e.input?.map (listed infos) = some input) :
    ∃ g', g.importInput .empty input = .ok g' ∧ Imported infos (done ++ [e]) g' := by
  obtain ⟨info, hinfo⟩ := hready.known
  obtain ⟨id, hid, rfl⟩ := Option.map_eq_some_iff.1 hinput
  unfold Entry.input? at hid
  split at hid
  · rename_i horigin
    cases hid
    obtain ⟨g', hg', himported⟩ := h.addTensor hready.new (by rw [Entry.op?, horigin]) hinfo
    rw [horigin] at hg'
    refine ⟨g', ?_, himported⟩
    have hlisted : listed infos e.id = ⟨e.id, info⟩ := by
      rw [listed, hinfo, Option.getD_some]
    rw [hlisted, Graph.importInput, Graph.hasTensor_eq_false_iff.2 (h.tensor?_eq_none hready.new), ← hg']
    rfl
  · cases hid

/-- A pass of import over entries of one sort: each is ready when those before it are done. -/
theorem pass {α : Type} {f : Entry → Option α} {step : Graph → α → Outcome Graph}
    (hstep : ∀ {done g e a}, Imported infos done g → Ready infos done e → f e = some a →
      ∃ g', step g a = .ok g' ∧ Imported infos (done ++ [e]) g') :
    ∀ {entries done : List Entry} {g : Graph}, Imported infos done g →
      (∀ before e after, entries = before ++ e :: after → Ready infos (done ++ before) e) →
      (∀ e ∈ entries, (f e).isSome) →
      ∃ g', (entries.filterMap f).foldlM step g = .ok g' ∧ Imported infos (done ++ entries) g'
  | [], done, g, h, _, _ => ⟨g, rfl, by rwa [List.append_nil]⟩
  | e :: entries, done, g, h, hready, hsort => by
    obtain ⟨a, ha⟩ := Option.isSome_iff_exists.1 (hsort e (List.mem_cons_self ..))
    have hfirst := hready [] e entries rfl
    rw [List.append_nil] at hfirst
    obtain ⟨g₁, hg₁, h₁⟩ := hstep h hfirst ha
    have hlater : ∀ before e' after, entries = before ++ e' :: after → Ready infos (done ++ [e] ++ before) e' := by
      intro before e' after heq
      have hnext := hready (e :: before) e' after (by rw [heq]; rfl)
      rwa [List.append_cons] at hnext
    obtain ⟨g', hg', h'⟩ := pass hstep h₁ hlater fun e' he' => hsort e' (List.mem_cons_of_mem _ he')
    refine ⟨g', ?_, by rwa [List.append_assoc] at h'⟩
    rw [List.filterMap_cons, ha, List.foldlM_cons, hg₁]
    exact hg'

end Imported

/-- Of the entries of one sort, each is ready when those before it are done, and all of other sorts that it may
read. -/
theorem Laid.ready (h : Laid infos log) {p : Entry → Bool} {before after : List Entry}
    (hsplit : log.filter p = before ++ e :: after) (hdone : ∀ d ∈ done, d ∈ log ∧ p d = false)
    (hrest : e.origin.operands = [] ∨ ∀ d ∈ log, p d = false → d ∈ done) : Ready infos (done ++ before) e := by
  obtain ⟨front, back, rfl, rfl, hback⟩ := List.filter_eq_append_iff.1 hsplit
  obtain ⟨skipped, back', rfl, hskipped, he, -⟩ := List.filter_eq_cons_iff.1 hback
  have hmem : e ∈ front ++ (skipped ++ e :: back') := by simp
  refine ⟨h.fits e hmem, (h.known e.id).1 (List.mem_map_of_mem hmem), fun hid => ?_, fun i hi => ?_⟩
  · obtain ⟨d, hd, hdid⟩ := List.mem_map.1 hid
    rcases List.mem_append.1 hd with hd | hd
    · obtain ⟨hdlog, hpd⟩ := hdone d hd
      rw [List.inj_on_of_nodup_map h.nodup hdlog hmem hdid, he] at hpd
      cases hpd
    · have hdistinct := h.nodup
      rw [List.map_append, List.nodup_append] at hdistinct
      exact hdistinct.2.2 _ (List.mem_map_of_mem (List.mem_filter.1 hd).1) _ (by simp) hdid
  · have hbefore := h.earlier (front ++ skipped) e back' (by simp) i hi
    obtain ⟨d, hd, rfl⟩ := List.mem_map.1 hbefore
    refine List.mem_map_of_mem ?_
    cases hpd : p d with
    | true =>
      rcases List.mem_append.1 hd with hd | hd
      · exact List.mem_append_right _ (List.mem_filter.2 ⟨hd, hpd⟩)
      · exact absurd hpd (hskipped d hd)
    | false =>
      rcases hrest with hnone | hrest
      · rw [hnone] at hi
        cases hi
      · refine List.mem_append_left _ (hrest d ?_ hpd)
        rw [← List.append_assoc]
        exact List.mem_append_left _ hd

theorem Imported.importOutputs {outputs : List NamedInfo} (houtputs : ∀ o ∈ outputs, o.name ∈ done.map (·.id)) :
    ∀ {g : Graph}, Imported infos done g →
      ∃ g', outputs.foldlM Graph.importOutput g = .ok g' ∧ Imported infos done g' := by
  induction outputs with
  | nil => exact fun h => ⟨_, rfl, h⟩
  | cons o outputs ih =>
    intro g h
    obtain ⟨e, he, hname⟩ := List.mem_map.1 (houtputs o (List.mem_cons_self ..))
    obtain ⟨x, hx, -⟩ := h.has e he
    have hheld : g.hasTensor o.name = true := Graph.hasTensor_iff.2 ⟨x, hname ▸ hx⟩
    obtain ⟨g', hg', h'⟩ := ih (fun o' ho' => houtputs o' (List.mem_cons_of_mem _ ho'))
      (g := ({ g with outputs := g.outputs ++ [o.name] }).keep o.name) ⟨h.has, h.known, h.ops, h.nextOp⟩
    refine ⟨g', ?_, h'⟩
    rw [List.foldlM_cons, Graph.importOutput, if_pos hheld]
    exact hg'

/-- What was imported does not depend on the order in which entries of different sorts were done. -/
theorem Imported.reorder {done' : List Entry} (h : Imported infos done g) (hmem : ∀ e, e ∈ done' ↔ e ∈ done)
    (hops : done'.filterMap Entry.op? = done.filterMap Entry.op?) : Imported infos done' g := by
  refine ⟨fun e he => h.has e ((hmem e).1 he), fun id x hx => ?_, ?_, ?_⟩
  · obtain ⟨e, he, hid⟩ := List.mem_map.1 (h.known id x hx)
    exact List.mem_map.2 ⟨e, (hmem e).2 he, hid⟩
  · rw [hops]
    exact h.ops
  · rw [hops]
    exact h.nextOp

/-- One pass of import over all entries of one sort. -/
theorem Laid.pass (h : Laid infos log) {α : Type} (f : Entry → Option α) (step : Graph → α → Outcome Graph)
    (hstep : ∀ {done g e a}, Imported infos done g → Ready infos done e → f e = some a →
      ∃ g', step g a = .ok g' ∧ Imported infos (done ++ [e]) g')
    (himported : Imported infos done g) (hdone : ∀ d ∈ done, d ∈ log ∧ f d = none)
    (hrest : (∀ e a, f e = some a → e.origin.operands = []) ∨ ∀ d ∈ log, f d = none → d ∈ done) :
    ∃ g', (log.filterMap f).foldlM step g = .ok g' ∧
      Imported infos (done ++ log.filter fun e => (f e).isSome) g' := by
  have hsort : (log.filter fun e => (f e).isSome).filterMap f = log.filterMap f := by
    rw [List.filterMap_filter]
    refine List.filterMap_congr fun e _ => ?_
    cases f e <;> rfl
  rw [← hsort]
  refine Imported.pass hstep himported (fun before e after hsplit => ?_) fun e he => (List.mem_filter.1 he).2
  have he : (f e).isSome := (List.mem_filter.1 (hsplit ▸ List.mem_append_right _ (List.mem_cons_self ..) : e ∈ log.filter _)).2
  obtain ⟨a, ha⟩ := Option.isSome_iff_exists.1 he
  refine h.ready hsplit (fun d hd => ⟨(hdone d hd).1, by rw [(hdone d hd).2]; rfl⟩) (hrest.imp (fun hnone => hnone e a ha) ?_)
  intro hall d hd hnone
  exact hall d hd (Option.isNone_iff_eq_none.1 (Option.isSome_eq_false_iff.1 hnone))

/-- Import accepts a model that lists laid entries and makes what they ask for. -/
theorem Laid.ofModel (h : Laid infos log) {m : Model} (hinitializers : m.initializers = log.filterMap Entry.initializer?)
    (hinputs : m.inputs = (log.filterMap Entry.input?).map (listed infos)) (hnodes : m.nodes = log.filterMap Entry.node?)
    (houtputs : ∀ o ∈ m.outputs, ∃ info, infos.get? o.name = some info) :
    ∃ g, Graph.ofModel m .empty = .ok g ∧ Imported infos log g := by
  let weights := log.filter fun e => e.initializer?.isSome
  let streams := log.filter fun e => (e.input?.map (listed infos)).isSome
  let nodes := log.filter fun e => e.node?.isSome
  have hlisted : ∀ e : Entry, (e.input?.map (listed infos)).isSome = e.input?.isSome := fun e => Option.isSome_map
  have hnodeless : ∀ d, d ∈ weights ++ streams ↔ d ∈ log ∧ d.node? = none := by
    intro d
    rw [List.mem_append, List.mem_filter, List.mem_filter, hlisted, ← and_or_left, Entry.node?_eq_none_iff]
  have hweights : ∀ d ∈ weights, d ∈ log ∧ d.input?.map (listed infos) = none := by
    intro d hd
    obtain ⟨hlog, hd⟩ := List.mem_filter.1 hd
    rw [Entry.input?_eq_none_of_initializer? hd]
    exact ⟨hlog, rfl⟩
  have hmem : ∀ d, d ∈ log ↔ d ∈ weights ++ streams ++ nodes := by
    intro d
    rw [List.mem_append, hnodeless, List.mem_filter, ← and_or_left, Option.isSome_iff_ne_none]
    exact (and_iff_left (em _)).symm
  have hops : log.filterMap Entry.op? = (weights ++ streams ++ nodes).filterMap Entry.op? := by
    have hnone : (weights ++ streams).filterMap Entry.op? = [] :=
      List.filterMap_eq_nil_iff.2 fun d hd => Entry.op?_of_node?_eq_none ((hnodeless d).1 hd).2
    rw [List.filterMap_append, hnone, List.nil_append, List.filterMap_filter]
    refine List.filterMap_congr fun d _ => ?_
    cases hnode : d.node? with
    | none => exact Entry.op?_of_node?_eq_none hnode
    | some n => rfl
  have hplain : ∀ e : Entry, e.initializer?.isSome = true ∨ e.input?.isSome = true → e.origin.operands = [] :=
    fun e he => Entry.operands_of_node?_eq_none (Entry.node?_eq_none_iff.2 he)
  obtain ⟨g₁, hg₁, h₁⟩ := h.pass Entry.initializer? Graph.importInitializer (fun hi hr ha => hi.importInitializer hr ha)
    .empty (by simp) (.inl fun e t ht => hplain e (.inl (by rw [ht, Option.isSome_some])))
  obtain ⟨g₂, hg₂, h₂⟩ := h.pass (fun e => e.input?.map (listed infos)) (Graph.importInput .empty)
    (fun hi hr ha => hi.importInput hr ha) h₁ hweights
    (.inl fun e i hi => hplain e (.inr (by rw [← hlisted, hi, Option.isSome_some])))
  obtain ⟨g₃, hg₃, h₃⟩ := h.pass Entry.node? Graph.importNode (fun hi hr ha => hi.importNode hr ha) h₂
    (fun d hd => (hnodeless d).1 hd) (.inr fun d hd hnone => (hnodeless d).2 ⟨hd, hnone⟩)
  obtain ⟨g, hg, h₄⟩ := (h₃.reorder hmem hops).importOutputs fun o ho => (h.known o.name).2 (houtputs o ho)
  refine ⟨g, ?_, h₄⟩
  rw [Graph.ofModel, hinitializers, hinputs, hnodes, List.map_filterMap]
  exact Outcome.bind_eq_ok.2 ⟨g₁, hg₁, Outcome.bind_eq_ok.2 ⟨g₂, hg₂, Outcome.bind_eq_ok.2 ⟨g₃, hg₃, hg⟩⟩⟩

/-! ## Finished models -/

theorem model_ok {b : Builder} {m : Model} (h : b.model = .ok m) :
    m.nodes = b.nodes ∧ m.initializers = b.initializers ∧ b.inputs.mapM b.named = .ok m.inputs ∧
      b.outputs.mapM b.named = .ok m.outputs := by
  unfold model at h
  split at h
  · cases h
  · split at h
    · cases h
    · split at h
      · cases h
      · obtain ⟨inputs, hinputs, h⟩ := Outcome.bind_eq_ok.1 h
        obtain ⟨outputs, houtputs, h⟩ := Outcome.bind_eq_ok.1 h
        obtain ⟨valueInfo, -, h⟩ := Outcome.bind_eq_ok.1 h
        cases h
        exact ⟨rfl, rfl, hinputs, houtputs⟩

theorem named_ok {b : Builder} {id : TensorId} {i : NamedInfo} (h : b.named id = .ok i) :
    b.infos.get? id = some i.info ∧ i = listed b.infos id := by
  obtain ⟨info, hinfo, h⟩ := Outcome.bind_eq_ok.1 h
  cases h
  have hinfo := Outcome.orFail_eq_ok.1 hinfo
  exact ⟨hinfo, by rw [listed, hinfo, Option.getD_some]⟩

/-- Every model that can be built is read back from its bytes, and import makes of it what the calls asked for: the ops
in the order of the calls, each of the kind that was given, with its operands, result, virtual graph and excluded
patterns, and the tensors of the builder with their infos, as streams, weights, constants or computed tensors. -/
theorem import_of_built (name : String) (calls : List Call) (hcalls : ∀ call ∈ calls, call.Allowed) (m : Model)
    (hm : (built name calls).1.model = .ok m) (hstorable : m.Storable) :
    ∃ g, (do Graph.ofModel (← Model.ofBytes m.toBytes) .empty) = .ok g ∧
      m.nodes = (built name calls).2.filterMap Entry.node? ∧
      (∀ k, g.op? k = (((built name calls).2.filterMap Entry.op?)[k]?).map fun op => op k) ∧
      (∀ id, g.info? id = (built name calls).1.infos.get? id) ∧
      ((built name calls).2.map (·.id)).Nodup ∧
      ∀ id info, (built name calls).1.info id = .ok info → ∃ e ∈ (built name calls).2, e.id = id ∧
        ∃ x, g.tensor? id = some x ∧ x.info = info ∧ x.type = e.origin.type ∧ x.data = e.origin.data := by
  have h : Records (built name calls).1 (built name calls).2 := .built hcalls
  obtain ⟨hnodes, hinitializers, hinputs, houtputs⟩ := model_ok hm
  have hread : Model.ofBytes m.toBytes = .ok m := by
    simpa using Model.ofBytes_toBytes_append hstorable []
  have hlisted : m.inputs = (built name calls).1.inputs.map (listed (built name calls).1.infos) :=
    eq_map_of_forall₂ ((Outcome.mapM_eq_ok.1 hinputs).imp fun id i hi => (named_ok hi).2)
  have hnamed : ∀ o ∈ m.outputs, ∃ info, (built name calls).1.infos.get? o.name = some info := by
    intro o ho
    obtain ⟨id, -, hid⟩ := exists_of_forall₂ (Outcome.mapM_eq_ok.1 houtputs).flip o ho
    obtain ⟨hinfo, rfl⟩ := named_ok hid
    exact ⟨_, hinfo⟩
  obtain ⟨g, hg, himported⟩ := h.laid.ofModel (hinitializers.trans h.initializers) (h.inputs ▸ hlisted)
    (hnodes.trans h.nodes) hnamed
  refine ⟨g, by rw [hread]; exact hg, hnodes.trans h.nodes, himported.ops, fun id => ?_, h.laid.nodup, ?_⟩
  · cases hid : (built name calls).1.infos.get? id with
    | some info => rw [← hid, himported.info?_eq ((h.laid.known id).2 ⟨info, hid⟩)]
    | none =>
      cases hx : g.tensor? id with
      | none => rw [Graph.info?, hx, Option.map_none]
      | some x =>
        obtain ⟨info, hinfo⟩ := (h.laid.known id).1 (himported.known id x hx)
        rw [hid] at hinfo
        cases hinfo
  · intro id info hinfo
    have hinfo := Outcome.orFail_eq_ok.1 hinfo
    obtain ⟨e, he, rfl⟩ := List.mem_map.1 ((h.laid.known id).2 ⟨info, hinfo⟩)
    obtain ⟨x, hx, hxinfo, htype, hdata⟩ := himported.has e he
    rw [hinfo, Option.some.injEq] at hxinfo
    exact ⟨e, he, rfl, x, hx, hxinfo.symm, htype, hdata⟩

/-- Calls in a name scope: a tensor takes the shape that a constant holds, which leaves its extent open, and is placed
and shielded from a pattern. A product of tensors that do not fit is refused on the way. -/
def sampleCalls : List Call :=
  [.pushScope "s", .input ⟨.float, [2, 3]⟩, .constant ⟨⟨.int64, [1]⟩, .i64 [-1]⟩, .reshape "s/input" "s/Constant:0",
    .op .matMul ["s/input", "s/Constant:0"], .virtualGraph "s/Reshape:0" 1, .exclude "s/Reshape:0" ["OpToIdentity"],
    .output "s/Reshape:0"]

/-- The model that comes out. -/
def sampleBuilt : Model where
  name := "g"
  nodes := [⟨"s/Constant:0", "Constant", "", [], ["s/Constant:0"],
      .ofList [("value", .tensor ⟨"s/Constant:0", ⟨.int64, [1]⟩, .i64 [-1]⟩)]⟩,
    ⟨"s/Reshape:0", "Reshape", "", ["s/input"], ["s/Reshape:0"],
      .ofList [("__excludePatterns", .strings ["OpToIdentity"]), ("__virtualGraph", .int 1), ("shape", .ints [6])]⟩]
  inputs := [⟨"s/input", ⟨.float, [2, 3]⟩⟩]
  outputs := [⟨"s/Reshape:0", ⟨.float, [6]⟩⟩]
  initializers := []
  valueInfo := [⟨"s/Reshape:0", ⟨.float, [6]⟩⟩]

theorem sampleCalls_model : (built "g" sampleCalls).1.model = .ok sampleBuilt := by decide +kernel

theorem sampleCalls_allowed : ∀ call ∈ sampleCalls, call.Allowed := by
  have hshape : HostTensor.Checked ⟨⟨.int64, [1]⟩, .i64 [-1]⟩ := rfl
  simp [sampleCalls, Call.Allowed, hshape, OpKind.inModels]

theorem sampleBuilt_storable : sampleBuilt.Storable := by
  have hfields : sampleBuilt.fields =
      (6, "ferrograph", 11, "g",
        [("s/Constant:0", "Constant", "", [], ["s/Constant:0"],
          [("value", .tensor ⟨"s/Constant:0", ⟨.int64, [1]⟩, .i64 [-1]⟩)]),
        ("s/Reshape:0", "Reshape", "", ["s/input"], ["s/Reshape:0"],
          [("__excludePatterns", .strings ["OpToIdentity"]), ("__virtualGraph", .int 1), ("shape", .ints [6])])],
        [⟨"s/input", ⟨.float, [2, 3]⟩⟩], [⟨"s/Reshape:0", ⟨.float, [6]⟩⟩], [], [⟨"s/Reshape:0", ⟨.float, [6]⟩⟩]) := rfl
  rw [Model.Storable, hfields]
  simp +decide [Fits, or_imp, forall_and]

/-- The extent that was left open is known, and nothing is left of the product. -/
theorem import_of_sampleCalls : ∃ g, (do Graph.ofModel (← Model.ofBytes sampleBuilt.toBytes) .empty) = .ok g ∧
    g.op? 0 = some
      { id := 0, kind := .reshape [6], name := "s/Reshape:0", inputs := ["s/input"], outputs := ["s/Reshape:0"],
        phase := .forward, virtualGraph := some 1, excluded := .ofList ["OpToIdentity"] } ∧
    g.op? 1 = none ∧ g.info? "s/Constant:0" = some ⟨.int64, [1]⟩ := by
  obtain ⟨g, hg, -, hops, hinfos, -⟩ :=
    import_of_built "g" sampleCalls sampleCalls_allowed sampleBuilt sampleCalls_model sampleBuilt_storable
  refine ⟨g, hg, ?_, ?_, ?_⟩
  · rw [hops]
    rfl
  · rw [hops]
    rfl
  · rw [hinfos]
    rfl

end Builder

end TensorGraph
