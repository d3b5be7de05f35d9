import BufferFusion.Proofs.Fusion.Agree
import BufferFusion.Proofs.Sharing.Validate

/-!
# What the pass makes of an answer

In the middle of fusion a node gets what its rule answers: a rejection is recorded and a proposal is
carried out. The only proposal that is refused is a concatenation with an input that occurs twice,
so what happens to a node is settled by the rule's answer alone.
-/
namespace BufferFusion

open Graph

variable {g h : Graph} {id : NodeId} {done : List NodeId} {p : Proposal}

/-- What the pass makes of a rule's answer: a proposal that places a node twice is in conflict. -/
def Decision.settle : Decision → Decision
  | .rejected reason => .rejected reason
  | .eligible p =>
    if (p.edges.map (·.member)).Nodup then .eligible p else .rejected .bufferConflict

namespace Pass

/-- The decision about a node in the middle of fusion. -/
def decide (g : Graph) (id : NodeId) : Result Decision :=
  Decision.settle <$> FusionRules.standard.judge g id

/-- Carries out a decision. -/
def carryOut (g : Graph) (id : NodeId) : Decision → Graph
  | .rejected reason => g.setState id (.rejected reason)
  | .eligible p => accept ((g.setState id .eligible).setSharing (g.sharing.commit p.edges)) id p

theorem decide_eq_ok {d : Decision} : decide g id = .ok d ↔
    ∃ a, FusionRules.standard.judge g id = .ok a ∧ a.settle = d := Result.map_eq_ok

theorem judge_of_decide (h : decide g id = .ok (.eligible p)) :
    FusionRules.standard.judge g id = .ok (.eligible p) := by
  obtain ⟨a, ha, hs⟩ := decide_eq_ok.1 h
  cases a with
  | rejected reason => cases hs
  | eligible q =>
    rw [Decision.settle] at hs
    split at hs
    · rw [ha, hs]
    · cases hs

theorem sameWiring_carryOut (g : Graph) (id : NodeId) (d : Decision) :
    (carryOut g id d).SameWiring g := by
  cases d with
  | rejected reason => exact sameWiring_setState ..
  | eligible p =>
    exact (sameWiring_setState ..).trans <| (sameWiring_setAssumption ..).trans <|
      (relaid_setLayouts ..).wiring.symm.trans <|
        (sameWiring_setSharing ..).trans (sameWiring_setState ..)

theorem setState_setState (g : Graph) (id : NodeId) (s s' : FusionState) :
    (g.setState id s).setState id s' = g.setState id s' := by
  simp [setState, adjust, List.modify_modify_eq, Function.comp_def]

end Pass

/-- A proposal that places a node twice is in conflict. -/
theorem Graph.Sound.propose_twice (hs : g.Sound) {n : Node} (hn : g.node? id = some n) {axis : Nat}
    {output : Layout} {extents : List Dim} (hc : Fuse.InPlaceProposal g n p axis output extents)
    (honce : ¬ Sharing.Once p.edges) : ∃ err,
      (g.setState id .eligible).propose p.edges = .error err ∧ err.kind = .bufferConflict := by
  obtain rfl := hs.id_eq hn
  have hlive : ∀ e ∈ p.edges, (g.setState n.id .eligible).contains e.owner = true ∧
      (g.setState n.id .eligible).contains e.member = true := by
    intro e he
    obtain ⟨i, m, b, x, l, rfl, hm, -⟩ := hc.of_mem_edges he
    rw [(sameWiring_setState ..).contains_eq, (sameWiring_setState ..).contains_eq]
    exact ⟨contains_iff.2 ⟨n, hn⟩, hs.live (.of_input hn hm)⟩
  cases hcheck : Sharing.checkMembers (g.setState n.id .eligible)
      (g.sharing.edges.map (·.member)) p.edges with
  | ok => exact absurd (Sharing.once_of_checkMembers hcheck).1 honce
  | error err =>
    refine ⟨err, ?_, Sharing.kind_of_checkMembers hlive hcheck⟩
    simp only [propose, Sharing.validate, sharing_setState, hcheck, bind, Except.bind]

namespace Fusing

variable (k : Fusing h g done)

include k

/-- The inputs of a concatenation that could write their slices have no place so far. -/
theorem free (hs : g.Sound) {s : FusionState} (hst : g.state? id = some s)
    (hopt : s.isOptimized = false) {n : Node} (hn : g.node? id = some n) {axis : Nat}
    {output : Layout} {extents : List Dim}
    (hc : Fuse.InPlaceProposal g n p axis output extents) :
    ∀ e ∈ p.edges, ∀ e' ∈ g.sharing.edges, e'.member ≠ e.member := by
  intro e he e' he' heq
  obtain rfl := hs.id_eq hn
  obtain ⟨i, m, b, x, l, rfl, -, hw, -⟩ := hc.of_mem_edges he
  obtain ⟨⟨o, m', place⟩, hfind⟩ : ∃ e'', g.sharing.edgeOf? m = some e'' :=
    Option.isSome_iff_exists.1 (List.find?_isSome.2 ⟨e', he', by simpa using heq⟩)
  have hmem := List.mem_of_find?_eq_some hfind
  obtain rfl : m' = m := by simpa using List.find?_some hfind
  obtain rfl : o = n.id := hw.here _ hfind
  cases place with
  | view offset =>
    obtain ⟨q, hq, hno, -⟩ := hw.writer
    have hview := (k.linked.view hmem).1
    rw [state?, hq, Option.map_some] at hview
    rw [Option.some.inj hview] at hno
    cases hno
  | slice => exact ne_of_state? hst hopt (k.linked.owner hmem).1 rfl

theorem propose_view (hs : g.Sound) (hnew : id ∉ done) {s : FusionState}
    (hst : g.state? id = some s) (hopt : s.isOptimized = false) {n : Node}
    (hn : g.node? id = some n) {into : NodeId} {input output : Layout}
    (hv : Fuse.ViewProposal g n p into input output) :
    (g.setState id .eligible).propose p.edges =
      .ok ((g.setState id .eligible).setSharing (g.sharing.commit p.edges)) := by
  obtain rfl := hs.id_eq hn
  have hnj : ∀ axis, ¬ g.Joins n.id axis := by
    rintro axis ⟨m, hm, hop⟩
    obtain rfl := Option.some.inj (hn.symm.trans hm)
    exact hv.reason.not_concatenation axis hop
  have hf : g.Feeds into n.id := .of_input hn ((input_eq_ok hn).1 hv.reads)
  have hlinked : (g.placed n.id [⟨into, n.id, .view p.offset⟩] (.optimized into p.offset)).Linked :=
    k.linked.addView hst hopt (fun e he heq => hnew (heq ▸ k.touched e he)) hv.reads hnj
  rw [hv.edges]
  refine hlinked.propose_eq_ok hs (fun e he => congrArg (·.owner) (List.mem_singleton.1 he))
    (fun e he => ?_) fun e he => ?_
  all_goals rw [List.mem_singleton.1 he]
  · exact ⟨hs.live hf, contains_iff.2 ⟨n, hn⟩⟩
  · exact fun heq : into = n.id => hs.not_feeds_self (heq ▸ hf)

theorem propose_inPlace (hs : g.Sound) (hnew : id ∉ done) {s : FusionState}
    (hst : g.state? id = some s) (hopt : s.isOptimized = false) {n : Node}
    (hn : g.node? id = some n) {axis : Nat} {output : Layout} {extents : List Dim}
    (hc : Fuse.InPlaceProposal g n p axis output extents) (honce : Sharing.Once p.edges) :
    (g.setState id .eligible).propose p.edges =
      .ok ((g.setState id .eligible).setSharing (g.sharing.commit p.edges)) := by
  have hfree := k.free hs hst hopt hn hc
  obtain rfl := hs.id_eq hn
  have hedge : ∀ e ∈ p.edges, e.owner = n.id ∧ g.Feeds e.member n.id := by
    intro e he
    obtain ⟨i, m, b, x, l, rfl, hm, -⟩ := hc.of_mem_edges he
    exact ⟨rfl, .of_input hn hm⟩
  have hself : ∀ e ∈ p.edges, n.id ≠ e.member :=
    fun e he heq => hs.not_feeds_self (heq ▸ (hedge e he).2)
  have hlinked : (g.placed n.id p.edges (.optimized n.id 0)).Linked := by
    refine k.linked.addSlices hst hopt (hc.slices hn honce)
      (fun e he heq => hnew (heq ▸ k.touched e he)) hfree hself ⟨n, hn, hc.op⟩ fun e he => ?_
    obtain ⟨i, m, b, x, l, rfl, -, hw, -⟩ := hc.of_mem_edges he
    obtain ⟨q, hq, hno, hwr⟩ := hw.writer
    exact ⟨⟨q.state, by simp [state?, hq], hno⟩, hw.alone, hw.inner, q, hq, hwr⟩
  refine hlinked.propose_eq_ok hs (fun e he => (hedge e he).1) (fun e he => ?_) fun e he => ?_
  · rw [(hedge e he).1]
    exact ⟨contains_iff.2 ⟨n, hn⟩, hs.live (hedge e he).2⟩
  · rw [(hedge e he).1]
    exact hself e he

/-- The pass carries out what it decides about a node. -/
theorem fuseNode_eq (hs : h.Sound) (hnew : id ∉ done) {s : FusionState}
    (hst : g.state? id = some s) (hterm : s.isTerminal = false) :
    Pass.fuseNode .standard g id =
      match Pass.decide g id with
      | .error e => (g, .error e)
      | .ok d => (Pass.carryOut g id d, .ok ()) := by
  have hsg := k.wiring.symm.sound hs
  have hopt := not_optimized_of_not_terminal hterm
  simp only [Pass.fuseNode, Pass.decide]
  split
  · next hj => rw [hj]; rfl
  · next hj => rw [hj]; rfl
  next p hj =>
  rw [hj]
  simp only [Functor.map, Except.map, Decision.settle]
  obtain ⟨n, hn, ⟨into, input, output, hv⟩ | ⟨axis, output, extents, hc⟩⟩ := judge_eligible hj
  · rw [k.propose_view hsg hnew hst hopt hn hv, if_pos (by simp [hv.edges])]
    rfl
  · by_cases honce : (p.edges.map (·.member)).Nodup
    · rw [if_pos honce, k.propose_inPlace hsg hnew hst hopt hn hc honce]
      rfl
    · obtain ⟨err, herr, hkind⟩ := hsg.propose_twice hn hc honce
      rw [if_neg honce, herr]
      simp only [hkind, if_true, Pass.setState_setState, Pass.carryOut]

end Fusing
end BufferFusion
