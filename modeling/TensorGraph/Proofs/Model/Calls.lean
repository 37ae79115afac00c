import TensorGraph.Model.Builder
import TensorGraph.Proofs.Graph.Effect
import TensorGraph.Proofs.Tensor.Host

/-!
Calls on a model under construction. What a history of calls asked for is kept as a list of entries, one for each
tensor, in the order in which they were made: how the tensor came about and what was noted of it later. The builder
holds exactly these entries, under distinct names, and every op reads only tensors that were made before it. A call
that fails leaves all of this as it was.
-/
namespace TensorGraph

/-- Whether nodes of models can stand for the op. -/
def OpKind.inModels : OpKind → Bool
  | identity | unary _ | softmax _ | binary _ | matMul | sum | reduceSum _ _ | reshape _ | transpose _ | slice _ _ _
  | pad _ _ | concat _ | gather _ | scatter _ => true
  | _ => false

namespace Builder

/-! ## Entries -/

/-- How a tensor came about. -/
inductive Origin where
  | input
  | weight (value : HostTensor)
  | constant (value : HostTensor)
  | op (kind : OpKind) (operands : List TensorId)

namespace Origin

/-- The tensors that are read. -/
def operands : Origin → List TensorId
  | op _ operands => operands
  | _ => []

/-- The type of the tensor in a graph. -/
def type : Origin → TensorType
  | input => .stream
  | weight _ => .weight
  | constant _ => .const
  | op _ _ => .actGrad

/-- The value that is known in advance. -/
def data : Origin → Option HostTensor
  | weight v | constant v => some v
  | _ => none

end Origin

/-- What is on record of a tensor. -/
structure Entry where
  id : TensorId
  origin : Origin
  virtualGraph : Option Int := none
  excluded : Option (List String) := none

namespace Entry

/-- The attributes together with what was noted. -/
def annotated (e : Entry) (attributes : Dict String Attribute) : Dict String Attribute :=
  let placed :=
    match e.virtualGraph with
    | none => attributes
    | some v => attributes.insert Graph.virtualGraphAttribute (.int v)
  match e.excluded with
  | none => placed
  | some patterns => placed.insert Graph.excludedAttribute (.strings patterns)

/-- The name under which an input is listed. -/
def input? (e : Entry) : Option TensorId :=
  match e.origin with
  | .input => some e.id
  | _ => none

/-- The tensor that stands for a weight. -/
def initializer? (e : Entry) : Option NamedTensor :=
  match e.origin with
  | .weight v => some ⟨e.id, v.info, v.data⟩
  | _ => none

/-- The node that stands for a constant or an op. -/
def node? (e : Entry) : Option Node :=
  match e.origin with
  | .constant v => some ⟨e.id, "Constant", "", [], [e.id], e.annotated (.ofList [("value", .tensor ⟨e.id, v.info, v.data⟩)])⟩
  | .op kind operands => some ⟨e.id, kind.typeName, "", operands, [e.id], e.annotated kind.attributes⟩
  | _ => none

/-- Whether the info of the tensor is the one that its origin calls for. -/
def Fits (infos : Dict TensorId TensorInfo) (e : Entry) : Prop :=
  match e.origin with
  | .input => True
  | .weight v | .constant v => v.Checked ∧ infos.get? e.id = some v.info
  | .op kind operands => kind.inModels = true ∧ ∃ known info,
      List.Forall₂ (fun i known => infos.get? i = some known) operands known ∧ kind.infer known = .ok info ∧
        infos.get? e.id = some info

theorem annotated_virtualGraph (e : Entry) (v : Int) (d : Dict String Attribute) :
    ({ e with virtualGraph := some v } : Entry).annotated d =
      (e.annotated d).insert Graph.virtualGraphAttribute (.int v) := by
  have hne : Graph.virtualGraphAttribute ≠ Graph.excludedAttribute := by decide
  refine Dict.ext_get? fun k => ?_
  unfold annotated
  cases e.virtualGraph <;> cases e.excluded <;> grind [Dict.get?_insert]

theorem annotated_excluded (e : Entry) (patterns : List String) (d : Dict String Attribute) :
    ({ e with excluded := some patterns } : Entry).annotated d =
      (e.annotated d).insert Graph.excludedAttribute (.strings patterns) := by
  refine Dict.ext_get? fun k => ?_
  unfold annotated
  cases e.excluded <;> grind [Dict.get?_insert]

theorem outputs_of_node? {e : Entry} {n : Node} (h : e.node? = some n) : n.outputs = [e.id] := by
  unfold node? at h
  split at h <;> cases h <;> rfl

end Entry

/-! ## Calls -/

/-- A call on a model under construction. -/
inductive Call where
  | input (info : TensorInfo)
  | weight (value : HostTensor)
  | constant (value : HostTensor)
  | op (kind : OpKind) (operands : List TensorId)
  | clip (x : TensorId) (min max : Single)
  | reshapeTo (x : TensorId) (target : List Int)
  | reshape (x shape : TensorId)
  | transpose (x : TensorId) (perm : List Int)
  | sliceTo (x : TensorId) (starts ends : List Int) (axes : Option (List Int))
  | slice (x starts ends : TensorId) (axes : Option TensorId)
  | output (id : TensorId)
  | virtualGraph (id : TensorId) (v : Int)
  | exclude (id : TensorId) (patterns : List String)
  | pushScope (scope : String)
  | popScope

namespace Call

/-- Makes the call. One that adds a tensor answers with its name. -/
def run : Call → BuilderM (Option TensorId)
  | input info => Stateful.change fun b => .ok (some (b.addInput info).1, (b.addInput info).2)
  | weight v => Stateful.change fun b => .ok (some (b.addWeight v).1, (b.addWeight v).2)
  | constant v => Stateful.change fun b => .ok (some (b.addConstant v).1, (b.addConstant v).2)
  | op kind operands => some <$> addOp kind operands
  | clip x min max => some <$> Builder.clip x min max
  | reshapeTo x target => some <$> Builder.reshapeTo x target
  | reshape x shape => some <$> Builder.reshape x shape
  | transpose x perm => some <$> Builder.transpose x perm
  | sliceTo x starts ends axes => some <$> Builder.sliceTo x starts ends axes
  | slice x starts ends axes => some <$> Builder.slice x starts ends axes
  | output id => Stateful.change fun b => do return (none, ← b.addOutput id)
  | virtualGraph id v => Stateful.change fun b => do return (none, ← b.setVirtualGraph id v)
  | exclude id patterns => Stateful.change fun b => do return (none, ← b.excludePatterns id patterns)
  | pushScope scope => Stateful.change fun b => .ok (none, b.pushScope scope)
  | popScope => Stateful.change fun b => .ok (none, b.popScope.2)

/-- What callers promise: values of weights and constants were checked, and ops are such that models hold. -/
def Allowed : Call → Prop
  | weight v | constant v => v.Checked
  | op kind _ => kind.inModels = true
  | _ => True

/-- The reshape that a target asks for. -/
def reshaped (b : Builder) (x : TensorId) (target : List Int) : Option Origin := do
  let info ← b.infos.get? x
  let shape ← (reshapeTarget info target).toOption
  return .op (.reshape shape) [x]

/-- The slice that positions ask for; without axes, of the first ones. -/
def sliced (x : TensorId) (starts ends : List Int) (axes : Option (List Int)) : Origin :=
  .op (.slice starts ends (axes.getD ((List.range starts.length).map Int.ofNat))) [x]

/-- The integers that a constant holds. -/
def held (b : Builder) (id : TensorId) : Option (List Int) :=
  (b.constants.get? id).map fun v => v.data.toInts.map Int64.toInt

/-- What a call wants a tensor to be made of. -/
def origin? (b : Builder) : Call → Option Origin
  | input _ => some .input
  | weight v => some (.weight v)
  | constant v => some (.constant v)
  | op kind operands => some (.op kind operands)
  | clip x min max => some (.op (.unary (.clip min max)) [x])
  | reshapeTo x target => reshaped b x target
  | reshape x shape => do reshaped b x (← held b shape)
  | transpose x [] => do
    let info ← b.infos.get? x
    return .op (.transpose ((List.range info.rank).reverse.map Int.ofNat)) [x]
  | transpose x perm => some (.op (.transpose perm) [x])
  | sliceTo x starts ends axes => some (sliced x starts ends axes)
  | slice x starts ends axes => do return sliced x (← held b starts) (← held b ends) (← axes.mapM (held b))
  | _ => none

/-- What a call notes of a tensor. -/
def annotate : Call → Entry → Entry
  | virtualGraph id v, e => if e.id = id then { e with virtualGraph := some v } else e
  | exclude id patterns, e => if e.id = id then { e with excluded := some patterns } else e
  | _, e => e

/-- The record after a call. -/
def record (call : Call) (b : Builder) (log : List Entry) : List Entry :=
  match (call.run.run b).1 with
  | .error _ => log
  | .ok none => log.map call.annotate
  | .ok (some id) => log ++ (call.origin? b).toList.map fun origin => { id, origin }

/-- The builder and the record after a call. -/
def step (s : Builder × List Entry) (call : Call) : Builder × List Entry :=
  ((call.run.run s.1).2, call.record s.1 s.2)

theorem id_annotate (call : Call) (e : Entry) : (call.annotate e).id = e.id := by
  unfold annotate
  split
  · split <;> rfl
  · split <;> rfl
  · rfl

theorem origin_annotate (call : Call) (e : Entry) : (call.annotate e).origin = e.origin := by
  unfold annotate
  split
  · split <;> rfl
  · split <;> rfl
  · rfl

end Call

/-- The builder and the record after a history of calls. -/
def built (name : String) (calls : List Call) : Builder × List Entry := calls.foldl Call.step ({ name }, [])

/-! ## What is on record -/

/-- Entries under distinct names, which are the names of the known tensors, each with the info that its origin calls
for, and ops behind the tensors that they read. -/
structure Laid (infos : Dict TensorId TensorInfo) (log : List Entry) : Prop where
  nodup : (log.map (·.id)).Nodup
  known : ∀ id, id ∈ log.map (·.id) ↔ ∃ info, infos.get? id = some info
  earlier : ∀ before e after, log = before ++ e :: after → ∀ i ∈ e.origin.operands, i ∈ before.map (·.id)
  fits : ∀ e ∈ log, e.Fits infos

/-- The builder holds what is on record. -/
structure Records (b : Builder) (log : List Entry) : Prop where
  laid : Laid b.infos log
  inputs : b.inputs = log.filterMap Entry.input?
  initializers : b.initializers = log.filterMap Entry.initializer?
  nodes : b.nodes = log.filterMap Entry.node?
  producers : ∀ id position, b.producers.get? id = some position → ∃ n, b.nodes[position]? = some n ∧ n.outputs = [id]

variable {infos : Dict TensorId TensorInfo} {b : Builder} {log : List Entry} {e : Entry} {id : TensorId}
  {info : TensorInfo}

theorem uniqueId_free (base : String) : b.infos.get? (b.uniqueId base) = none := by
  have hnumbered : Function.Injective fun i : Nat => s!"{base}/{i + 1}" := by
    intro i j h
    simp only [toString, String.append_right_inj] at h
    have := Graph.repr_injective h
    omega
  rw [← Dict.contains_eq_false_iff]
  unfold uniqueId
  split
  · obtain ⟨i, hi, hfree⟩ := b.infos.exists_free hnumbered
    have hfound : (((List.range (b.infos.size + 1)).map fun i => s!"{base}/{i + 1}").find?
        fun c => !b.infos.contains c).isSome :=
      List.find?_isSome.2 ⟨_, List.mem_map_of_mem hi, by simp only [hfree, Bool.not_false]⟩
    obtain ⟨c, hc⟩ := Option.isSome_iff_exists.1 hfound
    have hc' := List.find?_some hc
    simp only [hc, Option.getD_some]
    simpa using hc'
  · rename_i hfree
    simpa using hfree

theorem Entry.Fits.insert (h : e.Fits infos) (hid : infos.get? id = none) : e.Fits (infos.insert id info) := by
  have hkeep : ∀ i known, infos.get? i = some known → (infos.insert id info).get? i = some known :=
    fun i known => Dict.get?_insert_of_free hid
  unfold Fits at h ⊢
  split
  · trivial
  · rename_i horigin
    rw [horigin] at h
    exact ⟨h.1, hkeep _ _ h.2⟩
  · rename_i horigin
    rw [horigin] at h
    exact ⟨h.1, hkeep _ _ h.2⟩
  · rename_i horigin
    rw [horigin] at h
    obtain ⟨hkind, known, result, hoperands, hinfer, hresult⟩ := h
    exact ⟨hkind, known, result, hoperands.imp fun i k hi => hkeep i k hi, hinfer, hkeep _ _ hresult⟩

namespace Laid

/-- A new entry goes behind the others. -/
theorem push (h : Laid infos log) (e : Entry) (info : TensorInfo) (hid : infos.get? e.id = none) (hfits : e.Fits (infos.insert e.id info))
    (hreads : ∀ i ∈ e.origin.operands, ∃ known, infos.get? i = some known) :
    Laid (infos.insert e.id info) (log ++ [e]) := by
  have hnew : e.id ∉ log.map (·.id) := by
    rw [h.known, hid]
    rintro ⟨_, hsome⟩
    cases hsome
  refine ⟨?_, fun id => ?_, fun before e' after heq => ?_, fun e' he' => ?_⟩
  · rw [List.map_append, List.map_singleton, ← List.concat_eq_append]
    exact h.nodup.concat hnew
  · rw [List.map_append, List.map_singleton, List.mem_append, h.known, List.mem_singleton, Dict.get?_insert]
    by_cases hi : e.id = id
    · simp [hi]
    · simp [hi, Ne.symm hi]
  · rcases List.eq_nil_or_concat after with rfl | ⟨after, last, rfl⟩
    · obtain ⟨hbefore, hlast⟩ := List.append_inj' heq rfl
      cases hlast
      subst hbefore
      exact fun i hi => (h.known i).2 (hreads i hi)
    · rw [List.concat_eq_append, ← List.cons_append, ← List.append_assoc] at heq
      exact h.earlier before e' after (List.append_inj' heq rfl).1
  · rcases List.mem_append.1 he' with he' | he'
    · exact (h.fits e' he').insert hid
    · rw [List.mem_singleton] at he'
      exact he' ▸ hfits

/-- What is noted of tensors does not touch their names and origins. -/
theorem note (h : Laid infos log) {f : Entry → Entry} (hid : ∀ e, (f e).id = e.id)
    (horigin : ∀ e, (f e).origin = e.origin) : Laid infos (log.map f) := by
  have hids : ∀ l : List Entry, (l.map f).map (·.id) = l.map (·.id) := fun l => by
    simp only [List.map_map, Function.comp_def, hid]
  refine ⟨by rw [hids]; exact h.nodup, fun id => by rw [hids]; exact h.known id, fun before e after heq => ?_, ?_⟩
  · obtain ⟨before', rest, rfl, rfl, hrest⟩ := List.map_eq_append_iff.1 heq
    obtain ⟨e', after', rfl, rfl, -⟩ := List.map_eq_cons_iff.1 hrest
    rw [hids, horigin]
    exact h.earlier before' e' after' rfl
  · intro e he
    obtain ⟨e', he', rfl⟩ := List.mem_map.1 he
    have hfits := h.fits e' he'
    unfold Entry.Fits at hfits ⊢
    rw [horigin, hid]
    exact hfits

end Laid

/-! ## What calls do to the record -/

namespace Records

theorem start (name : String) : Records { name } [] := by
  refine ⟨⟨List.nodup_nil, fun id => ?_, fun before e after h => ?_, by simp⟩, rfl, rfl, rfl, ?_⟩
  · simp
  · simp at h
  · simp

theorem addInput (h : Records b log) (info : TensorInfo) :
    Records (b.addInput info).2 (log ++ [{ id := (b.addInput info).1, origin := .input }]) := by
  have hfree : b.infos.get? (b.addInput info).1 = none := uniqueId_free _
  have hlaid := h.laid.push { id := (b.addInput info).1, origin := .input } info hfree trivial (by simp [Origin.operands])
  refine ⟨hlaid, ?_, ?_, ?_, h.producers⟩
  · simp [Builder.addInput, h.inputs, Entry.input?]
  · simp [Builder.addInput, h.initializers, Entry.initializer?]
  · simp [Builder.addInput, h.nodes, Entry.node?]

theorem addWeight (h : Records b log) {v : HostTensor} (hv : v.Checked) :
    Records (b.addWeight v).2 (log ++ [{ id := (b.addWeight v).1, origin := .weight v }]) := by
  have hfree : b.infos.get? (b.addWeight v).1 = none := uniqueId_free _
  have hlaid := h.laid.push { id := (b.addWeight v).1, origin := .weight v } v.info hfree
    ⟨hv, by rw [Dict.get?_insert, if_pos rfl]⟩ (by simp [Origin.operands])
  refine ⟨hlaid, ?_, ?_, ?_, h.producers⟩
  · simp [Builder.addWeight, h.inputs, Entry.input?]
  · simp [Builder.addWeight, h.initializers, Entry.initializer?]
  · simp [Builder.addWeight, h.nodes, Entry.node?]

/-- The positions of the nodes stay, and a new node stands behind them. -/
theorem producers_append (h : Records b log) {n : Node} {id : TensorId} (hn : n.outputs = [id]) :
    ∀ i position, (b.producers.insert id b.nodes.length).get? i = some position →
      ∃ n', (b.nodes ++ [n])[position]? = some n' ∧ n'.outputs = [i] := by
  intro i position hi
  rw [Dict.get?_insert] at hi
  split at hi
  · rename_i heq
    cases hi
    exact ⟨n, by simp, heq ▸ hn⟩
  · obtain ⟨n', hn', hout⟩ := h.producers i position hi
    refine ⟨n', ?_, hout⟩
    rw [List.getElem?_append_left (List.getElem?_eq_some_iff.1 hn').1]
    exact hn'

theorem addConstant (h : Records b log) {v : HostTensor} (hv : v.Checked) :
    Records (b.addConstant v).2 (log ++ [{ id := (b.addConstant v).1, origin := .constant v }]) := by
  have hfree : b.infos.get? (b.addConstant v).1 = none := uniqueId_free _
  have hlaid := h.laid.push { id := (b.addConstant v).1, origin := .constant v } v.info hfree
    ⟨hv, by rw [Dict.get?_insert, if_pos rfl]⟩ (by simp [Origin.operands])
  refine ⟨hlaid, ?_, ?_, ?_, h.producers_append rfl⟩
  · simp [Builder.addConstant, h.inputs, Entry.input?]
  · simp [Builder.addConstant, h.initializers, Entry.initializer?]
  · simp [Builder.addConstant, h.nodes, Entry.node?, Entry.annotated]

theorem addOp (h : Records b log) {kind : OpKind} {operands : List TensorId} (hkind : kind.inModels = true)
    {id : TensorId} {b' : Builder} (hrun : (Builder.addOp kind operands).run b = (.ok id, b')) :
    Records b' (log ++ [{ id, origin := .op kind operands }]) := by
  rw [Builder.addOp, Stateful.run_change_ok] at hrun
  obtain ⟨known, hknown, hrun⟩ := Outcome.bind_eq_ok.1 hrun
  obtain ⟨info, hinfer, hrun⟩ := Outcome.bind_eq_ok.1 hrun
  simp only [pure, Except.pure, Except.ok.injEq, Prod.mk.injEq] at hrun
  obtain ⟨hid, rfl⟩ := hrun
  have hfree : b.infos.get? id = none := hid ▸ uniqueId_free _
  have hread : List.Forall₂ (fun i k => b.infos.get? i = some k) operands known :=
    (Outcome.mapM_eq_ok.1 hknown).imp fun i k hik => Outcome.orFail_eq_ok.1 hik
  rw [hid]
  have hlaid := h.laid.push { id, origin := .op kind operands } info hfree ?_ ?_
  · refine ⟨hlaid, ?_, ?_, ?_, h.producers_append rfl⟩
    · simp [h.inputs, Entry.input?]
    · simp [h.initializers, Entry.initializer?]
    · simp [h.nodes, Entry.node?, Entry.annotated]
  · exact ⟨hkind, known, info, hread.imp fun i k => Dict.get?_insert_of_free hfree, hinfer,
      by rw [Dict.get?_insert, if_pos rfl]⟩
  · intro i hi
    obtain ⟨k, -, hk⟩ := exists_of_forall₂ hread i hi
    exact ⟨k, hk⟩

/-- No two nodes make the same tensor. -/
theorem nodup_outputs (h : Records b log) : (b.nodes.map (·.outputs)).Nodup := by
  rw [List.Nodup, List.pairwise_map, h.nodes, List.pairwise_filterMap]
  refine (List.pairwise_map.1 h.laid.nodup).imp fun {e e'} hne n hn n' hn' heq => hne ?_
  rw [Entry.outputs_of_node? hn, Entry.outputs_of_node? hn'] at heq
  exact List.singleton_inj.1 heq

/-- The node that makes a tensor stands at one position only. -/
theorem modify_nodes (h : Records b log) {position : Nat} (hposition : b.producers.get? id = some position)
    (change : Node → Node) :
    b.nodes.modify position change = b.nodes.map fun n => if n.outputs = [id] then change n else n := by
  obtain ⟨made, hmade, hmakes⟩ := h.producers id position hposition
  refine List.ext_getElem? fun i => ?_
  rw [List.getElem?_modify, List.getElem?_map]
  cases hi : b.nodes[i]? with
  | none => rfl
  | some n =>
    have hsame : n.outputs = [id] ↔ position = i := by
      constructor
      · intro hn
        have hbound : position < (b.nodes.map (·.outputs)).length := by
          simpa using (List.getElem?_eq_some_iff.1 hmade).1
        refine (List.getElem?_inj hbound h.nodup_outputs).1 ?_
        rw [List.getElem?_map, List.getElem?_map, hi, hmade, Option.map_some, Option.map_some, hn, hmakes]
      · rintro rfl
        rw [hmade] at hi
        cases hi
        exact hmakes
    simp only [hsame, Option.map_some]
    split <;> rfl

/-- A node that is changed in place, its results apart, changes what is noted of the tensor it makes. -/
theorem note (h : Records b log) {position : Nat} (hposition : b.producers.get? id = some position) {f : Entry → Entry}
    {change : Node → Node} (hout : ∀ n, (change n).outputs = n.outputs) (hid : ∀ e, (f e).id = e.id)
    (horigin : ∀ e, (f e).origin = e.origin)
    (hnode : ∀ e, (f e).node? = if e.id = id then e.node?.map change else e.node?) :
    Records { b with nodes := b.nodes.modify position change } (log.map f) := by
  refine ⟨h.laid.note hid horigin, ?_, ?_, ?_, ?_⟩
  · have hinput : Entry.input? ∘ f = Entry.input? := by
      funext e
      simp only [Function.comp_apply, Entry.input?, hid, horigin]
    rw [List.filterMap_map, hinput]
    exact h.inputs
  · have hinitializer : Entry.initializer? ∘ f = Entry.initializer? := by
      funext e
      simp only [Function.comp_apply, Entry.initializer?, hid, horigin]
    rw [List.filterMap_map, hinitializer]
    exact h.initializers
  · rw [h.modify_nodes hposition, h.nodes, List.map_filterMap, List.filterMap_map]
    refine List.filterMap_congr fun e _ => ?_
    rw [Function.comp_apply, hnode]
    cases hn : e.node? with
    | none => simp
    | some n =>
      simp only [Option.map_some, Entry.outputs_of_node? hn, List.singleton_inj]
      split <;> rfl
  · intro i k hi
    obtain ⟨n, hn, hout'⟩ := h.producers i k hi
    refine ⟨if position = k then change n else n, ?_, ?_⟩
    · rw [List.getElem?_modify, hn]
      split <;> rfl
    · split
      · rw [hout, hout']
      · exact hout'

end Records

/-! ## Calls that add an op -/

/-- The call adds the op that was asked for, or fails; else it changes only which tensors count as read. -/
def Adds (x : BuilderM TensorId) (b : Builder) (origin : Option Origin) : Prop :=
  (∃ e consumed, x.run b = (.error e, { b with consumed })) ∨
    ∃ kind operands consumed, origin = some (.op kind operands) ∧ kind.inModels = true ∧
      x.run b = (addOp kind operands).run { b with consumed }

namespace Adds

theorem addOp {kind : OpKind} (hkind : kind.inModels = true) (operands : List TensorId) :
    Adds (addOp kind operands) b (some (.op kind operands)) :=
  .inr ⟨kind, operands, b.consumed, rfl, hkind, rfl⟩

theorem clip (x : TensorId) (min max : Single) :
    Adds (clip x min max) b (some (.op (.unary (.clip min max)) [x])) := by
  unfold Builder.clip
  split
  · exact .inl ⟨_, b.consumed, Stateful.run_fail _ _⟩
  · exact addOp rfl [x]

theorem get_bind {f : Builder → BuilderM TensorId} {origin : Option Origin} (h : Adds (f b) b origin) :
    Adds (get >>= f) b origin := h

theorem lift_bind {α : Type} {o : Outcome α} {f : α → BuilderM TensorId} {origin : Option Origin}
    (h : ∀ a, o = .ok a → Adds (f a) b origin) : Adds (Stateful.lift o >>= f) b origin := by
  cases ho : o with
  | error e => exact .inl ⟨e, b.consumed, rfl⟩
  | ok a => exact h a ho

theorem consume_bind {mark : Builder → Builder} {consumed : SortedSet TensorId} {x : BuilderM TensorId}
    {origin : Option Origin} (hmark : mark b = { b with consumed }) (h : Adds x { b with consumed } origin) :
    Adds (modify mark >>= fun _ => x) b origin := by
  have hrun : (modify mark >>= fun _ => x).run b = x.run { b with consumed } := by
    rw [Stateful.run_bind, Stateful.run_modify, hmark]
  unfold Adds at h ⊢
  rw [hrun]
  exact h

theorem reshapeTo (x : TensorId) (target : List Int) :
    Adds (Builder.reshapeTo x target) b (Call.reshaped b x target) := by
  refine get_bind (lift_bind fun shape hshape => ?_)
  obtain ⟨info, hinfo, hshape⟩ := Outcome.bind_eq_ok.1 hshape
  have horigin : Call.reshaped b x target = some (.op (.reshape shape) [x]) := by
    simp [Call.reshaped, Outcome.orFail_eq_ok.1 hinfo, hshape, Except.toOption]
  exact horigin ▸ addOp rfl [x]

theorem held_of_constantValues {op what : String} {values : List Int} (h : b.constantValues op what id = .ok values) :
    Call.held b id = some values := by
  unfold constantValues at h
  obtain ⟨_, -, h⟩ := Outcome.bind_eq_ok.1 h
  split at h
  · rename_i v hv
    cases h
    rw [Call.held, hv, Option.map_some]
  · cases h

theorem reshape (x shape : TensorId) : Adds (Builder.reshape x shape) b (Call.origin? b (.reshape x shape)) := by
  refine get_bind (lift_bind fun target htarget => consume_bind rfl ?_)
  have horigin : Call.origin? b (.reshape x shape) = Call.reshaped b x target := by
    simp [Call.origin?, held_of_constantValues htarget]
  exact horigin ▸ reshapeTo x target

theorem transpose (x : TensorId) (perm : List Int) :
    Adds (Builder.transpose x perm) b (Call.origin? b (.transpose x perm)) := by
  cases perm with
  | nil =>
    refine get_bind (lift_bind fun info hinfo => ?_)
    have horigin : Call.origin? b (.transpose x []) =
        some (.op (.transpose ((List.range info.rank).reverse.map Int.ofNat)) [x]) := by
      simp [Call.origin?, Outcome.orFail_eq_ok.1 hinfo]
    exact horigin ▸ addOp rfl [x]
  | cons p perm => exact addOp rfl [x]

theorem held_axes {op what : String} {axes : Option TensorId} {values : Option (List Int)}
    (h : axes.mapM (b.constantValues op what) = .ok values) : axes.mapM (Call.held b) = some values := by
  cases axes with
  | none =>
    cases h
    rfl
  | some a =>
    obtain ⟨_, hvalues, h⟩ := Outcome.bind_eq_ok.1 h
    cases h
    simp [held_of_constantValues hvalues]

theorem slice (x starts ends : TensorId) (axes : Option TensorId) :
    Adds (Builder.slice x starts ends axes) b (Call.origin? b (.slice x starts ends axes)) := by
  refine get_bind (lift_bind fun starts' hstarts => lift_bind fun ends' hends => lift_bind fun axes' haxes => ?_)
  have hmark : ([starts, ends] ++ axes.toList).foldl consume b =
      { b with consumed := b.consumed.insertMany ([starts, ends] ++ axes.toList) } := by
    cases axes <;> rfl
  refine consume_bind hmark ?_
  have horigin : Call.origin? b (.slice x starts ends axes) = some (Call.sliced x starts' ends' axes') := by
    simp [Call.origin?, held_of_constantValues hstarts, held_of_constantValues hends, held_axes haxes]
  exact horigin ▸ addOp rfl [x]

end Adds

namespace Records

/-- Only what the builder holds of tensors is on record. -/
theorem of_frame (h : Records b log) {b' : Builder}
    (hframe : b' = { b with outputs := b'.outputs, consumed := b'.consumed, scopes := b'.scopes }) : Records b' log := by
  rw [hframe]
  exact ⟨h.laid, h.inputs, h.initializers, h.nodes, h.producers⟩

theorem adds (h : Records b log) {x : BuilderM TensorId} {call : Call} (hrun : call.run = some <$> x)
    (hadds : Adds x b (call.origin? b)) : Records (call.run.run b).2 (call.record b log) := by
  have hmap : ∀ o b', x.run b = (o, b') → call.run.run b = (o.map some, b') := by
    intro o b' hx
    rw [hrun, map_eq_pure_bind, Stateful.run_bind, hx]
    cases o <;> rfl
  unfold Call.record
  rcases hadds with ⟨e, consumed, hx⟩ | ⟨kind, operands, consumed, horigin, hkind, hx⟩
  · rw [hmap _ _ hx]
    exact h.of_frame rfl
  · have hmarked : Records { b with consumed } log := h.of_frame rfl
    rcases hop : (Builder.addOp kind operands).run { b with consumed } with ⟨e | id, b'⟩
    · rw [hmap _ _ (hx.trans hop)]
      obtain ⟨-, rfl⟩ := Stateful.run_change_error.1 hop
      exact hmarked
    · rw [hmap _ _ (hx.trans hop), horigin]
      exact hmarked.addOp hkind hop

theorem setAttribute (h : Records b log) {f : Entry → Entry} {name : String} {value : Attribute} {b' : Builder}
    (hset : b.setAttribute id name value = .ok b') (hid : ∀ e, (f e).id = e.id)
    (horigin : ∀ e, (f e).origin = e.origin) (hother : ∀ e : Entry, e.id ≠ id → f e = e)
    (hnoted : ∀ (e : Entry) d, e.id = id → (f e).annotated d = (e.annotated d).insert name value) :
    Records b' (log.map f) := by
  obtain ⟨position, hposition, hset⟩ := Outcome.bind_eq_ok.1 hset
  cases hset
  refine h.note (Outcome.orFail_eq_ok.1 hposition) (fun _ => rfl) hid horigin fun e => ?_
  split
  · rename_i he
    unfold Entry.node?
    simp only [hid, horigin, hnoted e _ he]
    cases e.origin <;> rfl
  · rename_i he
    rw [hother e he]

theorem noted (h : Records b log) {call : Call} {f : Builder → Outcome Builder}
    (hrun : call.run = Stateful.change fun b => do return (none, ← f b))
    (hf : ∀ b', f b = .ok b' → Records b' (log.map call.annotate)) :
    Records (call.run.run b).2 (call.record b log) := by
  unfold Call.record
  cases hb' : f b with
  | error e =>
    have hfails : call.run.run b = (.error e, b) := by
      rw [hrun, Stateful.run_change_error, hb']
      exact ⟨rfl, rfl⟩
    rw [hfails]
    exact h
  | ok b' =>
    have hdone : call.run.run b = (.ok none, b') := by
      rw [hrun, Stateful.run_change_ok, hb']
      rfl
    rw [hdone]
    exact hf b' hb'

/-- What one call does to the builder, it does to the record. -/
theorem call (h : Records b log) {call : Call} (hcall : call.Allowed) :
    Records (call.run.run b).2 (call.record b log) := by
  have hplain : ∀ {b' : Builder} {f : Entry → Entry}, Records b' log → (∀ e, f e = e) → Records b' (log.map f) := by
    intro b' f hb' hf
    rwa [funext hf, List.map_id']
  cases call with
  | input info => exact h.addInput info
  | weight v => exact h.addWeight hcall
  | constant v => exact h.addConstant hcall
  | op kind operands => exact h.adds rfl (.addOp hcall operands)
  | clip x min max => exact h.adds rfl (.clip x min max)
  | reshapeTo x target => exact h.adds rfl (.reshapeTo x target)
  | reshape x shape => exact h.adds rfl (.reshape x shape)
  | transpose x perm => exact h.adds rfl (.transpose x perm)
  | sliceTo x starts ends axes => exact h.adds rfl (.addOp rfl [x])
  | slice x starts ends axes => exact h.adds rfl (.slice x starts ends axes)
  | output id =>
    refine h.noted rfl fun b' hb' => hplain ?_ fun _ => rfl
    unfold addOutput at hb'
    split at hb'
    · cases hb'
      exact h.of_frame rfl
    · cases hb'
  | virtualGraph id v =>
    refine h.noted rfl fun b' hb' =>
      h.setAttribute hb' (Call.id_annotate _) (Call.origin_annotate _) (fun e he => if_neg he) fun e d he => ?_
    simp only [Call.annotate, if_pos he, Entry.annotated_virtualGraph]
  | exclude id patterns =>
    refine h.noted rfl fun b' hb' =>
      h.setAttribute hb' (Call.id_annotate _) (Call.origin_annotate _) (fun e he => if_neg he) fun e d he => ?_
    simp only [Call.annotate, if_pos he, Entry.annotated_excluded]
  | pushScope scope => exact hplain (h.of_frame rfl) fun _ => rfl
  | popScope => exact hplain (h.of_frame rfl) fun _ => rfl

theorem built {name : String} {calls : List Call} (hcalls : ∀ call ∈ calls, call.Allowed) :
    Records (built name calls).1 (built name calls).2 := by
  have hrun : ∀ (calls : List Call) (s : Builder × List Entry), (∀ call ∈ calls, call.Allowed) → Records s.1 s.2 →
      Records (calls.foldl Call.step s).1 (calls.foldl Call.step s).2 := by
    intro calls
    induction calls with
    | nil => exact fun s _ h => h
    | cons call calls ih =>
      intro s hcalls h
      exact ih _ (fun c hc => hcalls c (List.mem_cons_of_mem _ hc)) (h.call (hcalls call (List.mem_cons_self ..)))
  exact hrun calls ({ name }, []) hcalls (start name)

end Records

end Builder

end TensorGraph
