import BufferFusion.Proofs.Fusion.Fused
import BufferFusion.Proofs.Fusion.Local
import BufferFusion.Proofs.Pass.Verdict

/-!
# What decisions amount to

A decision changes its own node and, of the nodes that nobody else reads, the layout. So a graph in
the middle of fusion is told by the decisions made so far, whatever order they were made in, and
what the pass sees at the next node is told by the decisions about its producers.
-/
namespace BufferFusion

open Graph

/-- A node of id `x` with the layout that a list has for it last, if any. -/
def Node.relay (x : NodeId) (ls : List (NodeId × Layout)) (n : Node) : Node :=
  { n with layout := (ls.reverse.lookup x).or n.layout }

theorem Node.relay_of_not_mem {x : NodeId} {ls : List (NodeId × Layout)} (n : Node)
    (hx : x ∉ ls.map (·.1)) : n.relay x ls = n := by
  have hnone : ls.reverse.lookup x = none := by
    rw [List.lookup_eq_none_iff]
    intro q hq
    rw [bne_iff_ne]
    rintro rfl
    exact hx (List.mem_map_of_mem (List.mem_reverse.1 hq))
  rw [Node.relay, hnone, Option.none_or]

namespace Graph

theorem node?_setLayouts (g : Graph) (ls : List (NodeId × Layout)) (x : NodeId) :
    (g.setLayouts ls).node? x = (g.node? x).map (Node.relay x ls) := by
  induction ls generalizing g with
  | nil => exact Option.map_id'.symm
  | cons q ls ih =>
    obtain ⟨y, l⟩ := q
    refine (ih _).trans ?_
    rw [node?_setLayout]
    by_cases hy : y = x
    · rw [if_pos hy, Option.map_map]
      refine congrArg (Option.map · _) (funext fun n => ?_)
      simp [Node.relay, List.lookup_append, hy]
    · rw [if_neg hy]
      refine congrArg (Option.map · _) (funext fun n => ?_)
      have hx : (x == y) = false := beq_eq_false_iff_ne.2 (Ne.symm hy)
      simp [Node.relay, List.lookup_append, List.lookup_cons, hx]

end Graph

namespace Decision

variable {b g : Graph} {d : Decision} {id x : NodeId} {n : Node}

/-- The layouts that a decision installs. -/
def layouts : Decision → List (NodeId × Layout)
  | .rejected _ => []
  | .eligible p => p.layouts

def edges : Decision → List SharingEdge
  | .rejected _ => []
  | .eligible p => p.edges

def state : Decision → FusionState
  | .rejected reason => .rejected reason
  | .eligible p => p.state

/-- The assumption of a node that had `a` before. -/
def assume (a : Option Assumption) : Decision → Option Assumption
  | .rejected _ => a
  | .eligible p => p.assumption

/-- What a decision about `id` makes of the node of id `x`. -/
def act (d : Decision) (id x : NodeId) (n : Node) : Node :=
  if id = x then { n.relay x d.layouts with state := d.state, assumption := d.assume n.assumption }
  else n.relay x d.layouts

theorem act_of_ne (hid : id ≠ x) (hx : x ∉ d.layouts.map (·.1)) : d.act id x n = n := by
  rw [act, if_neg hid, Node.relay_of_not_mem n hx]

theorem state_act_of_ne (hid : id ≠ x) : (d.act id x n).state = n.state := by
  rw [act, if_neg hid]
  rfl

theorem node?_carryOut (g : Graph) (id x : NodeId) (d : Decision) :
    (Pass.carryOut g id d).node? x = (g.node? x).map (d.act id x) := by
  cases d with
  | rejected reason =>
    rw [Pass.carryOut, node?_setState]
    by_cases hx : id = x
    · rw [if_pos hx]
      exact congrArg (Option.map · _) (funext fun n => by
        simp [act, hx, layouts, state, assume, Node.relay])
    · rw [if_neg hx]
      cases g.node? x <;> simp [act, hx, layouts, Node.relay]
  | eligible p =>
    simp only [Pass.carryOut, Pass.accept, node?_setState, node?_setAssumption, node?_setLayouts,
      node?_setSharing]
    by_cases hx : id = x
    · simp only [if_pos hx, Option.map_map]
      refine congrArg (Option.map · _) (funext fun n => ?_)
      simp only [Function.comp_apply, act, if_pos hx, layouts, state, assume]
      rfl
    · simp only [if_neg hx]
      exact congrArg (Option.map · _) (funext fun n => by simp [act, hx, layouts])

theorem layout_carryOut (g : Graph) (id x : NodeId) (d : Decision) :
    (Pass.carryOut g id d).layout x = (g.setLayouts d.layouts).layout x := by
  cases d with
  | rejected reason => exact layout_setState ..
  | eligible p =>
    simp only [Pass.carryOut, Pass.accept, layout_setState, layout_setAssumption]
    refine layout_setLayouts_congr (fun y => ?_) (fun y => ?_) _ x
    · exact ((sameWiring_setSharing ..).trans (sameWiring_setState ..)).contains_eq y
    · rw [layout_setSharing, layout_setState]

theorem sharing_carryOut (g : Graph) (id : NodeId) (d : Decision) :
    (Pass.carryOut g id d).sharing.edges = g.sharing.edges ++ d.edges := by
  cases d with
  | rejected reason => exact (List.append_nil _).symm
  | eligible p =>
    have r := relaid_setLayouts ((g.setState id .eligible).setSharing (g.sharing.commit p.edges))
      p.layouts
    exact congrArg Sharing.edges r.sharing

/-- Of other nodes a decision changes only those that its own node alone reads. -/
structure Local (b : Graph) (id : NodeId) (d : Decision) : Prop where
  layouts : ∀ q ∈ d.layouts, q.1 = id ∨ b.consumers q.1 = [id]
  edges : ∀ e ∈ d.edges, e.member = id ∨ e.owner = id ∧ b.consumers e.member = [id]

theorem Local.act_eq (k : d.Local b id) (hid : id ≠ x) (hx : b.consumers x ≠ [id]) (n : Node) :
    d.act id x n = n := by
  refine act_of_ne hid fun hmem => ?_
  obtain ⟨q, hq, rfl⟩ := List.mem_map.1 hmem
  rcases k.layouts q hq with h | h
  · exact hid h.symm
  · exact hx h

theorem local_rejected (reason : RejectReason) : (rejected reason).Local b id :=
  ⟨fun _ hq => absurd hq List.not_mem_nil, fun _ he => absurd he List.not_mem_nil⟩

theorem local_of_judge (hs : g.Sound) (h : FusionRules.standard.judge g id = .ok d) :
    d.Local g id := by
  cases d with
  | rejected reason => exact local_rejected reason
  | eligible p =>
    obtain ⟨n, hn, ⟨into, input, output, hv⟩ | ⟨axis, output, extents, hc⟩⟩ := judge_eligible h
    all_goals obtain rfl := hs.id_eq hn
    · refine ⟨fun q hq => .inl (hv.reason.of_mem_layouts hq).1, fun e he => .inl ?_⟩
      have he : e ∈ p.edges := he
      rw [hv.edges, List.mem_singleton] at he
      rw [he]
    · have halone : ∀ m ∈ n.inputs, g.consumers m = [n.id] := by
        intro m hm
        obtain ⟨i, hi⟩ := List.mem_iff_getElem?.1 hm
        obtain ⟨l, extent, before, hw, -⟩ := hc.slice hi
        exact hw.alone
      refine ⟨fun q hq => .inr (halone _ ?_), fun e he => .inr ?_⟩
      · rw [← hc.keys]
        exact List.mem_map_of_mem hq
      · obtain ⟨i, m, before, extent, l, rfl, hm, -⟩ := hc.of_mem_edges he
        exact ⟨rfl, halone m (List.mem_of_getElem? hm)⟩

theorem Local.settle (k : d.Local b id) : d.settle.Local b id := by
  cases d with
  | rejected reason => exact k
  | eligible p =>
    rw [Decision.settle]
    split
    · exact k
    · exact local_rejected .bufferConflict

end Decision

/-- Whatever is decided about a node, only its inputs change with it. -/
theorem Pass.local_of_decide {b g : Graph} {id : NodeId} {d : Decision} (hs : g.Sound)
    (w : g.SameWiring b) (h : Pass.decide g id = .ok d) : d.Local b id := by
  obtain ⟨a, ha, rfl⟩ := Pass.decide_eq_ok.1 h
  have k := Decision.local_of_judge hs ha
  refine Decision.Local.settle ⟨fun q hq => ?_, fun e he => ?_⟩
  · rw [← w.consumers_eq]
    exact k.layouts q hq
  · rw [← w.consumers_eq]
    exact k.edges e he

/-- What the decisions about the nodes of `done` make of the node of id `x`: its own decision comes
first, then that of the one node that reads it. -/
def Graph.outcome (b : Graph) (d : NodeId → Decision) (done : List NodeId) (x : NodeId)
    (n : Node) : Node :=
  let own := if x ∈ done then (d x).act x x n else n
  match b.consumers x with
  | [c] => if c ∈ done then (d c).act c x own else own
  | _ => own

/-- A graph that fusion has made of `b` by deciding about the nodes of `done` as `d` says. -/
structure Graph.Follows (b : Graph) (d : NodeId → Decision) (g : Graph) (done : List NodeId) :
    Prop where
  fused : Fused b g done
  kept : ∀ i ∈ done, (d i).Local b i
  node : ∀ x, g.node? x = (b.node? x).map (b.outcome d done x)
  sharing : g.sharing.edges.Perm (done.flatMap fun i => (d i).edges)

namespace Graph

variable {b g h : Graph} {d d' : NodeId → Decision} {done done' : List NodeId} {id x a : NodeId}

/-- The graph that fusion starts from. -/
structure Unfused (b : Graph) : Prop where
  sound : b.Sound
  state : ∀ {x n}, b.node? x = some n → n.state = .unanalyzed
  sharing : b.sharing.edges = []
  yielded : b.Yielded

theorem Unfused.follows (k : b.Unfused) (d : NodeId → Decision) : b.Follows d b [] where
  fused := fused_of_unanalyzed k.state k.sharing k.yielded.layout
  kept := by simp
  node := by
    intro x
    have hid : b.outcome d [] x = fun n => n := by
      funext n
      simp only [outcome, List.not_mem_nil, if_false]
      split <;> rfl
    rw [hid, Option.map_id']
  sharing := by simp [k.sharing]

theorem outcome_congr (hd : ∀ i ∈ done, d' i = d i) (hmem : ∀ i, i ∈ done' ↔ i ∈ done) (x : NodeId)
    (n : Node) : b.outcome d' done' x n = b.outcome d done x n := by
  have hown : (if x ∈ done' then (d' x).act x x n else n) =
      if x ∈ done then (d x).act x x n else n := by
    by_cases hx : x ∈ done
    · rw [if_pos hx, if_pos ((hmem x).2 hx), hd x hx]
    · rw [if_neg hx, if_neg (mt (hmem x).1 hx)]
  simp only [outcome, hown]
  split
  · next c _ =>
    by_cases hc : c ∈ done
    · rw [if_pos hc, if_pos ((hmem c).2 hc), hd c hc]
    · rw [if_neg hc, if_neg (mt (hmem c).1 hc)]
  · rfl

namespace Follows

theorem congr (k : b.Follows d g done) (hd : ∀ i ∈ done, d' i = d i) : b.Follows d' g done where
  fused := k.fused
  kept := fun i hi => hd i hi ▸ k.kept i hi
  node := by
    intro x
    rw [k.node, funext (outcome_congr hd (fun _ => Iff.rfl) x)]
  sharing := by
    rw [List.flatMap_congr fun i hi => congrArg Decision.edges (hd i hi)]
    exact k.sharing

variable (k : b.Follows d g done)

include k

theorem wiring : g.SameWiring b := k.fused.fusing.wiring

theorem once : Sharing.Once g.sharing.edges := k.fused.fusing.linked.once

/-- A node that is not yet decided about is as it was. -/
theorem node?_of_not_mem (hb : b.Sound) (hx : x ∉ done) : g.node? x = b.node? x := by
  have hid : b.outcome d done x = fun n => n := by
    funext n
    simp only [outcome, if_neg hx]
    split
    · next c hc =>
      have hf : b.Feeds x c := (hb.feeds_iff_of_consumers hc).2 rfl
      rw [if_neg fun hmem => hx (k.fused.closed hf hmem)]
    · rfl
  rw [k.node, hid, Option.map_id']

/-- A node that is read by one that is not yet decided about got its own decision and no other. -/
theorem node?_of_feeds (hb : b.Sound) (hf : b.Feeds a id) (hid : id ∉ done) (ha : a ∈ done) :
    g.node? a = (b.node? a).map ((d a).act a a) := by
  have hown : b.outcome d done a = (d a).act a a := by
    funext n
    simp only [outcome, if_pos ha]
    split
    · next c hc =>
      rw [if_neg ((hb.feeds_iff_of_consumers hc).1 hf ▸ hid)]
    · rfl
  rw [k.node, hown]

theorem state?_of_not_mem (hu : b.Unfused) (hx : x ∉ done) (hlive : b.contains x = true) :
    g.state? x = some .unanalyzed := by
  obtain ⟨n, hn⟩ := contains_iff.1 hlive
  rw [state?, k.node?_of_not_mem hu.sound hx, hn, Option.map_some, hu.state hn]

/-- The state of a node is what was decided about it, whatever its consumer did to the layout. -/
theorem state?_of_mem (hb : b.Sound) (hx : x ∈ done) :
    g.state? x = (b.node? x).map fun _ => (d x).state := by
  rw [state?, k.node, Option.map_map]
  refine congrArg (Option.map · _) (funext fun n => ?_)
  have hown : ((d x).act x x n).state = (d x).state := by rw [Decision.act, if_pos rfl]
  simp only [Function.comp_apply, outcome, if_pos hx]
  split
  · next c hc =>
    have hf : b.Feeds x c := (hb.feeds_iff_of_consumers hc).2 rfl
    have hne : c ≠ x := fun he => hb.not_feeds_self (he ▸ hf)
    split
    · rw [Decision.state_act_of_ne hne, hown]
    · exact hown
  · exact hown

theorem mem_edges {e : SharingEdge} :
    e ∈ g.sharing.edges ↔ ∃ i ∈ done, e ∈ (d i).edges := by
  rw [k.sharing.mem_iff, List.mem_flatMap]

/-- Who gave a place to a node that `id` reads: its own decision, or a concatenation `id`. -/
theorem edges_cases (hb : b.Sound) (hf : b.Feeds a id) {i : NodeId} (hi : i ∈ done)
    {e : SharingEdge} (he : e ∈ (d i).edges) (hm : e.member = a) : i = a ∨ i = id ∧ e.owner = id := by
  rcases (k.kept i hi).edges e he with h | ⟨ho, h⟩
  · exact .inl (h.symm.trans hm)
  · obtain rfl := (hb.feeds_iff_of_consumers h).1 (hm ▸ hf)
    exact .inr ⟨rfl, ho⟩

/-- Nor has it another place than its own decision gave it. -/
theorem mem_edges_of_feeds (hb : b.Sound) (hf : b.Feeds a id) (hid : id ∉ done) (ha : a ∈ done)
    {e : SharingEdge} (he : e.member = a) : e ∈ g.sharing.edges ↔ e ∈ (d a).edges := by
  rw [k.mem_edges]
  constructor
  · rintro ⟨i, hi, hmem⟩
    rcases k.edges_cases hb hf hi hmem he with rfl | ⟨rfl, -⟩
    · exact hmem
    · exact absurd hi hid
  · exact fun hmem => ⟨a, ha, hmem⟩

/-- Two graphs that follow the same decisions look the same at a node that is next in both. -/
theorem alikeAt (hb : b.Sound) (k' : b.Follows d h done') (hid : id ∉ done) (hid' : id ∉ done')
    (hready : ∀ a, b.Feeds a id → a ∈ done) (hready' : ∀ a, b.Feeds a id → a ∈ done') :
    g.AlikeAt h id := by
  have hnode : ∀ {a}, b.Feeds a id → h.node? a = g.node? a := fun hf => by
    rw [k.node?_of_feeds hb hf hid (hready _ hf), k'.node?_of_feeds hb hf hid' (hready' _ hf)]
  constructor
  · exact k.wiring.trans k'.wiring.symm
  · apply layout_congr
    rw [k.node?_of_not_mem hb hid, k'.node?_of_not_mem hb hid']
  · intro a hf
    exact layout_congr (hnode (k.wiring.feeds hf))
  · intro a hf
    have hf := k.wiring.feeds hf
    refine taken_congr k.once k'.once (state?_congr (hnode hf)) fun e he _ => ?_
    rw [k.mem_edges_of_feeds hb hf hid (hready a hf) he,
      k'.mem_edges_of_feeds hb hf hid' (hready' a hf) he]

theorem outcome_cons (hb : b.Sound) (hl : (d id).Local b id) (hid : id ∉ done) (x : NodeId)
    (n : Node) : b.outcome d (id :: done) x n = (d id).act id x (b.outcome d done x n) := by
  have hreader : ∀ {c}, b.consumers x = [c] → b.Feeds x c := fun hc =>
    (hb.feeds_iff_of_consumers hc).2 rfl
  by_cases hx : id = x
  · subst hx
    simp only [outcome, List.mem_cons_self, if_true, if_neg hid]
    split
    · next c hc =>
      -- a node is decided about before the one that reads it
      have hc' : c ∉ done := fun hmem => hid (k.fused.closed (hreader hc) hmem)
      have hne : c ≠ id := fun he => hb.not_feeds_self (he ▸ hreader hc)
      rw [if_neg hc', if_neg fun hmem => (List.mem_cons.1 hmem).elim hne hc']
    · rfl
  · have hown : x ∈ id :: done ↔ x ∈ done := by
      rw [List.mem_cons, or_iff_right (Ne.symm hx)]
    simp only [outcome, hown]
    split
    · next c hc =>
      by_cases hcid : c = id
      · subst hcid
        rw [if_pos List.mem_cons_self, if_neg hid]
      · have hkeep := hl.act_eq hx fun he => hcid (List.singleton_inj.1 (hc.symm.trans he))
        simp only [hkeep, List.mem_cons, hcid, false_or]
    · next hno => exact (hl.act_eq hx (hno id) _).symm

/-- Fusing the next node as `d` says. -/
theorem step (hu : b.Unfused) (hid : id ∉ done) (hlive : b.contains id = true)
    (hready : ∀ a, b.Feeds a id → a ∈ done) (hd : Pass.decide g id = .ok (d id)) :
    Pass.fuseNode .standard g id = (Pass.carryOut g id (d id), .ok ()) ∧
      b.Follows d (Pass.carryOut g id (d id)) (id :: done) := by
  have hb := hu.sound
  have hst := k.state?_of_not_mem hu hid hlive
  have hfuse : Pass.fuseNode .standard g id = (Pass.carryOut g id (d id), .ok ()) := by
    rw [k.fused.fusing.fuseNode_eq hb hid hst rfl, hd]
  have hl : (d id).Local b id := Pass.local_of_decide (k.wiring.symm.sound hb) k.wiring hd
  have hfused := k.fused.step hb hid hready hst rfl (Pass.fuseStep_fuseNode g id)
  rw [hfuse] at hfused
  refine ⟨hfuse, hfused, ?_, fun x => ?_, ?_⟩
  · intro i hi
    rcases List.mem_cons.1 hi with rfl | hi
    · exact hl
    · exact k.kept i hi
  · rw [Decision.node?_carryOut, k.node, Option.map_map, funext (k.outcome_cons hb hl hid x)]
    rfl
  · rw [Decision.sharing_carryOut, List.flatMap_cons]
    exact (k.sharing.append_right _).trans List.perm_append_comm

end Follows
end Graph
end BufferFusion
