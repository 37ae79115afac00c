import TensorGraph.Proofs.Placement.Automatic
import TensorGraph.Proofs.Session.Construction

/-!
Every op of a session is placed within the range: forward ops by cost or where they say, and the others after what they
follow. An op may follow an op that does not feed it, as the gradient of a loss follows the loss. Such an op depends on
all that the other depends on and has a higher number, and among the ops that can run the least runs first, so what is
followed has been placed before.
-/
namespace TensorGraph

namespace Graph

variable {g : Graph} {o f p : OpId} {done l : List OpId}

/-! ## Ops and what they follow -/

/-- An op that covers another depends on all that feeds the other. -/
theorem Covers.transGen {fop op : Op} (h : g.Covers fop op) (hs : g.Sound) (ho : g.op? o = some op)
    (hf : g.op? f = some fop) (hfeeds : g.Feeds p f) : Relation.TransGen g.Feeds p o := by
  obtain ⟨_, hf', t, ht, hp⟩ := hfeeds
  cases hf.symm.trans hf'
  cases h with
  | grad _ reads => exact .single ⟨op, ho, t, reads ht, hp⟩
  | @sum _ _ e grad r found _ reads made read =>
    have hgrad : g.Feeds p e := ⟨grad, found, t, reads ht, hp⟩
    exact .tail (.single hgrad) ⟨op, ho, r, read, hs.linked.makes.2 ⟨grad, found, made⟩⟩
  | known _ _ reads =>
    -- nothing produces what is known
    obtain ⟨x, hx, hxp⟩ := producer?_eq_some.1 hp
    exact absurd (hs.produced hx hxp) (reads t ht x hx)

/-- When an op runs, the op that it follows is a forward op or has run. -/
theorem Steady.followed_before (h : g.Steady none) (hdone : g.Closed done) (hleast : LeastFirst g done (o :: l))
    (hfed : ∀ p, g.Feeds p o → p ∈ done) {op fop : Op} (ho : g.op? o = some op) (hforward : op.forwardOp = some f)
    (hf : g.op? f = some fop) : fop.phase = .forward ∨ f ∈ done := by
  obtain ⟨hlt, hcase⟩ := h.tied o op f ho hforward
  refine (hcase fop hf).imp_right fun hcovers => ?_
  by_contra hnot
  -- it could have run before, since it has the lower number
  have hready : ∀ p, g.Feeds p f → p ∈ done := fun p hp =>
    hdone.mem_of_transGen hfed (hcovers.transGen h.sound ho hf hp)
  exact absurd (hleast.1 f fop hf hnot hready) (Nat.not_le.2 hlt)

end Graph

namespace Placement

open TensorGraph.Graph (Schedule LeastFirst Moved)

variable {g g₀ : Graph} {o id : OpId} {n : Nat} {v : Int} {training : Bool} {done l : List OpId} {op : Op}

/-! ## Places within the range -/

/-- One of `n` virtual graphs. -/
def InRange (n : Nat) (v : Int) : Prop := 0 ≤ v ∧ v < n

/-- Forward ops, and the ops that are done, are on one of `n` virtual graphs. -/
def Settled (g : Graph) (n : Nat) (done : List OpId) : Prop :=
  ∀ o op, g.op? o = some op → op.phase = .forward ∨ o ∈ done → ∃ v, op.virtualGraph = some v ∧ InRange n v

namespace Settled

theorem place (h : Settled g n done) (hv : InRange n v) : Settled (place g id v) n (id :: done) := by
  intro o op' ho' hwhich
  rw [Placement.place, Graph.op?_modifyOp] at ho'
  split at ho'
  · obtain ⟨op, -, rfl⟩ := Option.map_eq_some_iff.1 ho'
    exact ⟨v, rfl, hv⟩
  · rename_i hne
    exact h o op' ho' (hwhich.imp_right fun hmem => (List.mem_cons.1 hmem).resolve_left fun e => hne e.symm)

theorem range (h : Settled g n done) (ho : g.op? o = some op) (hwhich : op.phase = .forward ∨ o ∈ done)
    (hv : op.virtualGraph = some v) : InRange n v := by
  obtain ⟨w, hw, hrange⟩ := h o op ho hwhich
  cases hv.symm.trans hw
  exact hrange

theorem weaken (h : Settled g n (id :: done)) : Settled g n done :=
  fun o op ho hwhich => h o op ho (hwhich.imp_right (List.mem_cons_of_mem _))

theorem foldl_place : ∀ {placed : List (OpId × Int)} {g : Graph}, Settled g n done →
    (∀ e ∈ placed, InRange n e.2) → Settled (placed.foldl (fun g (id, v) => Placement.place g id v) g) n done
  | [], g, h, _ => h
  | (id, v) :: placed, g, h, hrange => by
    have hfirst : Settled (Placement.place g id v) n done := (h.place (hrange (id, v) (by simp))).weaken
    rw [List.foldl_cons]
    exact foldl_place hfirst fun e he => hrange e (List.mem_cons_of_mem _ he)

/-- An op goes within the range if the op that it follows is a forward op or done, and its producers are. -/
theorem following (h : Settled g n done) (hn : 0 < n)
    (hfollowed : ∀ f fop, op.forwardOp = some f → g.op? f = some fop → fop.phase = .forward ∨ f ∈ done)
    (hproducers : ∀ t ∈ op.inputs, ∀ p, g.producer? t = some p → p ∈ done) : InRange n (following g op) := by
  have hown : ∀ v, (op.forwardOp.bind g.op?).bind (·.virtualGraph) = some v → InRange n v := by
    intro v hv
    obtain ⟨fop, hfop, hv⟩ := Option.bind_eq_some_iff.1 hv
    obtain ⟨f, hf, hfop⟩ := Option.bind_eq_some_iff.1 hfop
    exact h.range hfop (hfollowed f fop hf hfop) hv
  have huser : ∀ v, weightUser? g op = some v → InRange n v := by
    intro v hv
    unfold weightUser? at hv
    split at hv
    · obtain ⟨user, huser, hv⟩ := Option.bind_eq_some_iff.1 hv
      obtain ⟨c, -, hc⟩ := List.mem_filterMap.1 (List.mem_of_find?_eq_some huser)
      have hphase := List.find?_some huser
      exact h.range hc (.inl (of_decide_eq_true hphase)) hv
    · cases hv
  have hlatest : ∀ v, latestProducer? g op = some v → InRange n v := by
    intro v hv
    obtain ⟨pop, hpop, hv⟩ := List.mem_filterMap.1 (List.max?_mem hv)
    obtain ⟨p, hp, hpop⟩ := List.mem_filterMap.1 hpop
    obtain ⟨t, ht, hp⟩ := List.mem_filterMap.1 hp
    exact h.range hpop (.inr (hproducers t ht p hp)) hv
  simp only [Placement.following]
  cases hv : (((op.forwardOp.bind g.op?).bind (·.virtualGraph)).or (weightUser? g op)).or (latestProducer? g op) with
  | none => exact ⟨Int.le_refl 0, Int.natCast_pos.2 hn⟩
  | some v =>
    rcases Option.or_eq_some_iff.1 hv with hv | ⟨-, hv⟩
    · rcases Option.or_eq_some_iff.1 hv with hv | ⟨-, hv⟩
      · exact hown v hv
      · exact huser v hv
    · exact hlatest v hv

/-- One op more has followed. -/
theorem follow (h : Settled g n done) (hn : 0 < n) (hsteady : g₀.Steady none) (hmoved : Moved g₀ g)
    (hclosed : g₀.Closed done) (hfed : ∀ p, g₀.Feeds p o → p ∈ done) (hleast : LeastFirst g₀ done (o :: l)) :
    Settled (follow g o) n (o :: done) := by
  rcases follow_cases g o with ⟨heq, hforward⟩ | ⟨op, ho, -, heq⟩
  · rw [heq]
    intro q op hq hwhich
    refine h q op hq (hwhich.elim .inl fun hmem => ?_)
    rcases List.mem_cons.1 hmem with rfl | hmem
    · exact .inl (hforward op hq)
    · exact .inr hmem
  · rw [heq]
    refine h.place (h.following hn (fun f fop hf hfop => ?_) fun t ht p hp => ?_)
    · obtain ⟨op₀, ho₀, hop⟩ := hmoved.op ho
      obtain ⟨fop₀, hfop₀, hfopEq⟩ := hmoved.op hfop
      rw [hop] at hf
      have hbefore := hsteady.followed_before hclosed hleast hfed ho₀ hf hfop₀
      rw [hfopEq]
      exact hbefore
    · exact hfed p (hmoved.feeds ⟨op, ho, t, ht, hp⟩)

/-- All ops that stand in an order have followed. -/
theorem placeFollowers (hn : 0 < n) (hsteady : g₀.Steady none) : ∀ {l done : List OpId} {g : Graph},
    Settled g n done → Moved g₀ g → g₀.Closed done → Schedule g₀ done l → LeastFirst g₀ done l →
    Settled (placeFollowers g l) n (l.reverse ++ done)
  | [], done, g, h, _, _, _, _ => h
  | o :: l, done, g, h, hmoved, hclosed, hsched, hleast => by
    have hfed := hsched.2.2.1
    have hnext := placeFollowers hn hsteady (h.follow hn hsteady hmoved hclosed hfed hleast)
      (hmoved.trans (moved_follow g o)) (hclosed.cons hfed) hsched.2.2.2 hleast.2
    rw [List.reverse_cons, List.append_assoc]
    exact hnext

end Settled

/-! ## Forward ops -/

theorem range_of_named {e : OpId × Int} (h : named n op = .ok e) : op.virtualGraph = some e.2 ∧ InRange n e.2 := by
  obtain ⟨v, hv, h⟩ := Outcome.bind_eq_ok.1 h
  split at h
  · cases h
  · rename_i hrange
    cases h
    rw [not_or, Int.not_lt, Int.not_le] at hrange
    exact ⟨Outcome.orFail_eq_ok.1 hv, hrange⟩

theorem range_of_checkOp (h : checkOp g n op = .ok v) : op.virtualGraph = some v ∧ InRange n v := by
  obtain ⟨w, hw, h⟩ := Outcome.bind_eq_ok.1 h
  split at h
  · cases h
  · rename_i hrange
    rw [not_or, Int.not_lt, Int.not_le] at hrange
    split at h
    · cases h
    · cases h
      exact ⟨Outcome.orFail_eq_ok.1 hw, hrange⟩

theorem settled_of_validate (h : validate g n = .ok ()) : Settled g n [] := by
  obtain ⟨used, hused, -⟩ := Outcome.bind_eq_ok.1 h
  intro o op ho hwhich
  have hphase : op.phase = .forward := hwhich.resolve_right (by simp)
  have hmem : op ∈ g.ops.values.filter (·.phase = .forward) :=
    List.mem_filter.2 ⟨Dict.mem_values.2 ⟨o, ho⟩, decide_eq_true hphase⟩
  obtain ⟨v, -, hv⟩ := exists_of_forall₂ (Outcome.mapM_eq_ok.1 hused) op hmem
  exact ⟨v, range_of_checkOp hv⟩

/-- Forward ops are within the range before anything follows them, whether nobody chose their places, so that these
are checked at the end, or they name them. -/
theorem settled_of_forwardPlaces {balance : Balance} {mode : Mode} {placed : List (OpId × Int)} {stages : Nat}
    (hc : Graph.Complete g l) (hl : g.Linked)
    (hplaces : forwardPlaces balance mode g (l.filterMap g.op?) n training = .ok (placed, stages))
    (hcheck : check mode (placeAll g (l.filterMap g.op?) placed) n = .ok ()) :
    Settled (placed.foldl (fun g (id, v) => place g id v) g) n [] := by
  cases mode with
  | automatic =>
    intro o op ho hwhich
    have hphase : op.phase = .forward := hwhich.resolve_right (by simp)
    exact settled_of_validate hcheck o op (op?_placeFollowers hphase _ ho) (.inl hphase)
  | manual =>
    obtain ⟨placed', hnamed, h⟩ := Outcome.bind_eq_ok.1 hplaces
    cases h
    have hall := Outcome.mapM_eq_ok.1 hnamed
    refine Settled.foldl_place (fun o op ho hwhich => ?_) fun e he => ?_
    · have hphase : op.phase = .forward := hwhich.resolve_right (by simp)
      have hid : g.op? op.id = some op := by rw [hl.opId ho, ho]
      obtain ⟨e, -, he⟩ := exists_of_forall₂ hall (op, l.idxOf op.id) ((mem_forwardOps hc hl).2 ⟨hid, hphase, rfl⟩)
      exact ⟨e.2, range_of_named he⟩
    · obtain ⟨_, -, hop⟩ := exists_of_forall₂ hall.flip e he
      exact (range_of_named hop).2

/-! ## Costs -/

/-- The sum over all of a list that lies in `n` parts is taken part by part. -/
theorem sum_parts {α : Type} (w : α → Nat) (part : α → Option Int) : ∀ {l : List α},
    (∀ a ∈ l, ∃ v, part a = some v ∧ InRange n v) →
    ((List.range n).map fun v => ((l.filter (part · = some (Int.ofNat v))).map w).sum).sum = (l.map w).sum
  | [], _ => by simp
  | a :: l, h => by
    obtain ⟨v, hv, hlow, hhigh⟩ := h a (by simp)
    obtain ⟨k, rfl⟩ := Int.eq_ofNat_of_zero_le hlow
    have hk : k ∈ Finset.range n := Finset.mem_range.2 (Int.ofNat_lt.1 hhigh)
    have hrange : ∀ f : Nat → Nat, ((List.range n).map f).sum = ∑ v ∈ Finset.range n, f v := fun _ => rfl
    have hone : ∀ v : Nat, (((a :: l).filter (part · = some (Int.ofNat v))).map w).sum =
        (if k = v then w a else 0) + ((l.filter (part · = some (Int.ofNat v))).map w).sum := by
      intro v
      by_cases hkv : k = v <;> simp [hv, hkv]
    have ih := sum_parts w part fun b hb => h b (List.mem_cons_of_mem _ hb)
    rw [hrange] at ih ⊢
    simp only [hone]
    rw [Finset.sum_add_distrib, Finset.sum_ite_eq, if_pos hk, ih, List.map_cons, List.sum_cons]

/-- If all ops are within the range, the costs of the virtual graphs come to those of all ops. -/
theorem sum_costs {cs : List Nat} (hall : ∀ o op, g.op? o = some op → ∃ v, op.virtualGraph = some v ∧ InRange n v)
    (h : costs g n training = .ok cs) :
    ∃ each, g.ops.values.mapM (fun op => g.cost op training) = .ok each ∧ cs.sum = each.sum := by
  have hparts := Outcome.mapM_eq_ok.1 h
  have hin : ∀ op ∈ g.ops.values, ∃ v, op.virtualGraph = some v ∧ InRange n v := by
    intro op hop
    obtain ⟨o, ho⟩ := Dict.mem_values.1 hop
    exact hall o op ho
  have hcost : ∀ op ∈ g.ops.values, g.cost op training = .ok (weight g training op) := by
    intro op hop
    obtain ⟨v, hv, hlow, hhigh⟩ := hin op hop
    obtain ⟨k, rfl⟩ := Int.eq_ofNat_of_zero_le hlow
    obtain ⟨c, -, hc⟩ := exists_of_forall₂ hparts k (List.mem_range.2 (Int.ofNat_lt.1 hhigh))
    obtain ⟨each, heach, -⟩ := Outcome.bind_eq_ok.1 hc
    obtain ⟨c, -, hc⟩ := exists_of_forall₂ (Outcome.mapM_eq_ok.1 heach) op
      (List.mem_filter.2 ⟨hop, decide_eq_true hv⟩)
    rw [weight, hc]
  have hsums : costs g n training =
      .ok ((List.range n).map fun v => ((opsOn g v).map (weight g training)).sum) := by
    refine Outcome.mapM_of_forall fun v hv => ?_
    obtain ⟨c, -, hc⟩ := exists_of_forall₂ hparts v hv
    obtain ⟨each, heach, hsum⟩ := Outcome.bind_eq_ok.1 hc
    rw [Outcome.mapM_of_forall fun op hop => hcost op (List.mem_filter.1 hop).1] at heach
    cases heach
    obtain ⟨-, rfl⟩ := Word.nat_eq_ok_iff.1 hsum
    exact hc
  cases h.symm.trans hsums
  exact ⟨_, Outcome.mapM_of_forall hcost, sum_parts (weight g training) (·.virtualGraph) hin⟩

/-! ## Whole placements -/

/-- A placement that succeeds changes nothing but places, and leaves no op of a steady graph outside the range. -/
theorem placed_in_range {balance : Balance} {mode : Mode} {b b' : Build} {summary : Summary}
    (hsteady : b.graph.Steady none) (hn : 0 < n)
    (hrun : (runBy balance mode n training).run b = (.ok summary, b')) :
    Moved b.graph b'.graph ∧ (∀ o op, b'.graph.op? o = some op → ∃ v, op.virtualGraph = some v ∧ InRange n v) ∧
      costs b'.graph n training = .ok summary.costs := by
  obtain ⟨order, placed, horder, hplaces, hcheck, hcosts, -, rfl⟩ := runBy_eq_ok.1 hrun
  obtain ⟨l, hl, h⟩ := Outcome.bind_eq_ok.1 horder
  cases h
  have hlinked := hsteady.sound.linked
  have hc := Graph.order_complete hlinked hl
  have hforward := settled_of_forwardPlaces hc hlinked hplaces hcheck
  have hall := hforward.placeFollowers hn hsteady (moved_foldl placed b.graph) (by intro p q _ hq; cases hq)
    hc.schedule (Graph.order_leastFirst hlinked hl)
  have hmoved := moved_placeAll b.graph (l.filterMap b.graph.op?) placed
  refine ⟨hmoved, fun o op ho => hall o op ?_ (.inr ?_), hcosts⟩
  · rw [← hc.map_id hlinked]
    exact ho
  · obtain ⟨op₀, ho₀, -⟩ := hmoved.op ho
    simpa using hc.all ho₀

end Placement

namespace SessionConfig

section

variable {m : Model} {infos : Dict TensorId TensorInfo} {attached : List Loss} {optimizer : Option Sgd}
  {differentiated : Option (List Loss)} {anchors : List TensorId} {selection : Selection} {backend : Option String}
  {limit : Nat} {imported : Graph} {equipped kept simplified placed : Build} {stats : PassStats}
  {balance : Placement.Balance} {mode : Placement.Mode} {n : Nat} {training : Bool} {summary : Placement.Summary}

/-- The ops of a session that is placed on `n` virtual graphs stay, each on one of them, and the costs that are reported
come to those of all ops. -/
theorem constructed_ops_placed (himport : Graph.ofModel m infos = .ok imported)
    (hequip : (equip .empty attached optimizer differentiated).run { graph := imported } = (.ok (), equipped))
    (hanchors : (BuildM.onGraph (anchors.forM keepAnchor)).run equipped = (.ok (), kept))
    (hpatterns : (Stage.runAll (selection.pipeline .empty (backend.bind Backend.named?) limit)).run kept =
      (.ok stats, simplified)) (hn : 1 ≤ n)
    (hplace : (Placement.runBy balance mode n training).run simplified = (.ok summary, placed)) :
    Graph.Moved simplified.graph placed.graph ∧
      (∀ o op, placed.graph.op? o = some op → ∃ v, op.virtualGraph = some v ∧ 0 ≤ v ∧ v < n) ∧
      ∃ each, placed.graph.ops.values.mapM (fun op => placed.graph.cost op training) = .ok each ∧
        summary.costs.sum = each.sum := by
  obtain ⟨hrewritten, -, -⟩ := constructed_rewritten himport hequip hanchors hpatterns
  obtain ⟨hmoved, hrange, hcosts⟩ := Placement.placed_in_range hrewritten.steady hn hplace
  exact ⟨hmoved, hrange, Placement.sum_costs hrange hcosts⟩

end

/-- An identity that names a virtual graph outside the range hands a sum on to an op and to a loss. It is dropped, and
leaves behind what was placed after it: the loss, the gradient of the loss, and its own gradient, which is kept. -/
def handedOn : Blueprint where
  model :=
    { name := "handed on"
      nodes :=
        [{ name := "", opType := "Add", domain := "", inputs := ["s", "w"], outputs := ["a"],
            attributes := .ofList [(Graph.virtualGraphAttribute, .int 0)] },
          { name := "", opType := "Identity", domain := "", inputs := ["a"], outputs := ["b"],
            attributes := .ofList [(Graph.virtualGraphAttribute, .int 7)] },
          { name := "", opType := "Relu", domain := "", inputs := ["b"], outputs := ["r"],
            attributes := .ofList [(Graph.virtualGraphAttribute, .int 1)] }]
      inputs := [⟨"s", ⟨.float, [2]⟩⟩]
      outputs := [⟨"r", ⟨.float, [2]⟩⟩]
      initializers := [⟨"w", ⟨.float, [2]⟩, .f32 [.one, .one]⟩]
      valueInfo := [] }
  losses := [.l1 "b" "loss" .one .sum]
  anchors := ["d__a"]
  selection := ⟨[.dropIdentity], .empty⟩

/-- On two virtual graphs, nothing stays on the one that the identity named. -/
theorem constructed_ops_placed_handedOn : handedOn.Succeeds ∧
    (handedOn.simplified.2.graph.op? 3).bind (·.virtualGraph) = some 7 ∧
    ∃ summary placed, (Placement.run .manual 2 true).run handedOn.simplified.2 = (.ok summary, placed) ∧
      (∀ o op, placed.graph.op? o = some op → ∃ v, op.virtualGraph = some v ∧ 0 ≤ v ∧ v < (2 : Nat)) ∧
      ∃ each, placed.graph.ops.values.mapM (fun op => placed.graph.cost op true) = .ok each ∧
        summary.costs.sum = each.sum := by
  have hrun : ((Graph.ofModel handedOn.model .empty).isOk = true ∧ handedOn.equipped.1 = .ok () ∧
      handedOn.kept.1 = .ok () ∧ handedOn.simplified.1.isOk = true) ∧
      (handedOn.simplified.2.graph.op? 3).bind (·.virtualGraph) = some 7 ∧
      ((Placement.run .manual 2 true).run handedOn.simplified.2).1.isOk = true := by
    decide +kernel
  obtain ⟨⟨himport, hequip, hkept, hsimplified⟩, hstale, hplace⟩ := hrun
  have hsucceeds := Blueprint.succeeds himport hequip hkept hsimplified
  obtain ⟨summary, hsummary⟩ := Outcome.exists_of_isOk hplace
  have hplaced := Stateful.eq_ok_of_fst hsummary
  refine ⟨hsucceeds, hstale, summary, _, hplaced, ?_⟩
  obtain ⟨himport, hequip, hkept, stats, hsimplified⟩ := hsucceeds
  exact (constructed_ops_placed himport hequip hkept hsimplified (by decide) hplaced).2

end SessionConfig

end TensorGraph
