import Mathlib.Algebra.Order.BigOperators.Group.List
import Mathlib.Algebra.Order.Ring.Nat
import Mathlib.Data.List.Perm.Subperm
import BufferFusion.Proofs.Execution.Equivalence
import BufferFusion.Proofs.Execution.Uniform
import BufferFusion.Proofs.Inference.Restore
import BufferFusion.Proofs.Layout.Within

/-!
# Fusion costs no memory

Without fusion every node is alone in its buffer. A fused buffer takes what its root takes there, so
the sizes of the fused buffers are among those of the unfused ones.
-/
namespace BufferFusion

open Graph

variable {plan plan' : BufferPlan} {buffer : LogicalBuffer} {n : Nat}

/-- Without its padding a layout takes no more elements. -/
theorem Layout.footprint_bare {l : Layout} (hv : l.isValid = true) (h : l.footprint = .ok n) :
    ∃ n', l.bare.footprint = .ok n' ∧ n' ≤ n := by
  obtain ⟨_, hstored, -⟩ := Result.bind_eq_ok.1 h
  obtain ⟨sizes, hs, -, hlen, -⟩ := storedDims_eq_ok hstored
  have hbare : l.bare.isValid = true :=
    isValid_iff.2 ⟨(isValid_iff.1 hv).1, List.length_replicate⟩
  have hformat : l.bare.format = l.format := rfl
  refine footprint_mono hformat hs hs hbare (Padding.hasDynamic_zero _) ?_ h
  have hrank : sizes.length = l.shape.rank := length_sizes hs
  rw [show l.bare.padding = .zero l.shape.rank from rfl, paddedSizes_zero hrank]
  exact le_paddedSizes hlen

/-- One plan needs no more memory than the other. -/
structure BufferPlan.Within (plan plan' : BufferPlan) : Prop where
  count : plan.buffers.length ≤ plan'.buffers.length
  total : (plan.buffers.map (·.elements)).sum ≤ (plan'.buffers.map (·.elements)).sum
  /-- The largest buffer is no larger. -/
  largest : ∀ buffer ∈ plan.buffers, ∃ buffer' ∈ plan'.buffers, buffer.elements ≤ buffer'.elements

namespace BufferPlan

theorem within_of_subperm
    (h : (plan.buffers.map (·.elements)).Subperm (plan'.buffers.map (·.elements))) :
    plan.Within plan' where
  count := by simpa using h.length_le
  total := by
    obtain ⟨kept, hperm, hsub⟩ := h
    rw [← hperm.sum_eq]
    exact hsub.sum_le_sum fun _ _ => Nat.zero_le _
  largest := fun buffer hb => by
    obtain ⟨buffer', hb', he⟩ := List.mem_map.1 (h.subset (List.mem_map_of_mem hb))
    exact ⟨buffer', hb', he.ge⟩

namespace Partitions

variable {f r : Graph} {x y : NodeId}

/-- Where no edge joins nodes, each of them is alone in its buffer. -/
theorem eq_of_mem (k : plan.Partitions r) (hnone : r.sharing.edges = [])
    (hb : buffer ∈ plan.buffers) (hx : x ∈ buffer.members) (hy : y ∈ buffer.members) : x = y := by
  have hconnected := (k.connected buffer hb x hx y).1 hy
  rw [hnone] at hconnected
  rcases hconnected.cases_tail with heq | ⟨_, -, e, he, -⟩
  · exact heq.symm
  · cases he

/-- The one node of a buffer takes all of it. -/
theorem takes_alone (k : plan.Partitions r) (hnone : r.sharing.edges = [])
    (hb : buffer ∈ plan.buffers) (hx : x ∈ buffer.members) : r.Takes x buffer.elements := by
  obtain ⟨y, hy, htakes⟩ := (k.largest buffer hb).1
  exact k.eq_of_mem hnone hb hx hy ▸ htakes

/-- Where each buffer of a plan has a member that takes alone what the buffer takes, the sizes are
among those of the plan in which every node is alone. -/
theorem subperm_elements (k : plan.Partitions f) (k' : plan'.Partitions r)
    (hnone : r.sharing.edges = [])
    (hroot : ∀ buffer ∈ plan.buffers, ∃ root ∈ buffer.members, r.Takes root buffer.elements) :
    (plan.buffers.map (·.elements)).Subperm (plan'.buffers.map (·.elements)) := by
  have halone : ∀ buffer ∈ plan.buffers, ∃ alone ∈ plan'.buffers, ∃ root, root ∈ buffer.members ∧
      root ∈ alone.members ∧ alone.elements = buffer.elements := by
    intro buffer hb
    obtain ⟨root, hmem, htakes⟩ := hroot buffer hb
    obtain ⟨l, hl, -⟩ := id htakes
    obtain ⟨m, hm, -⟩ := layout_eq_ok.1 hl
    obtain ⟨alone, ha, hin⟩ := (k'.contains_iff root).1 (Graph.contains_iff.2 ⟨m, hm⟩)
    exact ⟨alone, ha, root, hmem, hin, (k'.takes_alone hnone ha hin).unique htakes⟩
  choose! alone halone root hmem hin helements using halone
  have hsizes : plan.buffers.map (·.elements) = (plan.buffers.map alone).map (·.elements) := by
    rw [List.map_map]
    exact List.map_congr_left fun buffer hb => (helements buffer hb).symm
  have hnodup : (plan.buffers.map alone).Nodup := by
    rw [List.Nodup, List.pairwise_map]
    refine k.disjoint.imp_of_mem fun {buffer buffer'} hb hb' hdisjoint heq => ?_
    -- two buffers whose roots are alone in one buffer have the root in common
    have hsame := k'.eq_of_mem hnone (halone buffer hb) (hin buffer hb) (heq ▸ hin buffer' hb')
    exact hdisjoint (hmem buffer hb) (hsame ▸ hmem buffer' hb')
  have hsubset : plan.buffers.map alone ⊆ plan'.buffers := by
    intro _ hmap
    obtain ⟨buffer, hb, rfl⟩ := List.mem_map.1 hmap
    exact halone buffer hb
  obtain ⟨kept, hperm, hsub⟩ := List.subperm_of_subset hnodup hsubset
  rw [hsizes]
  exact ⟨_, hperm.map _, hsub.map _⟩

end Partitions
end BufferPlan

namespace Graph.Restored

variable {g f c h s r : Graph} {ρ : NodeId → NodeId} {tensors : List (NodeId × Tensor)}
  {values values' : InputValues} {report : RecheckReport} {x : NodeId}
  (k : Restored g f c h ρ tensors values) (hs : h.recheck .standard = (s, .ok report))
  (hr : g.resolve tensors = (r, .ok values'))

include k hs hr

/-- What a recheck has made of a layout is, but for its padding, what it is without fusion. -/
theorem layout_bare {l : Layout} (hx : g.contains x = true) (hl : s.layout (ρ x) = .ok l) :
    r.layout x = .ok l.bare := by
  obtain ⟨_, -, kr⟩ := k.compiled.rechecked k.resolved hs
  rw [k.resolves_iff.2 r values' hr x hx]
  exact (kr.layout_resolved k.resolved hl).1

/-- What has a size with fusion has one without. -/
theorem takes_ok (hall : ∀ x, s.contains x = true → ∃ n, s.Takes x n) (hx : r.contains x = true) :
    ∃ n, r.Takes x n := by
  obtain ⟨_, -, kr⟩ := k.compiled.rechecked k.resolved hs
  have hx : g.contains x = true := by
    rwa [(k.sound.resolved hr).relaid.wiring.contains_eq]
  obtain ⟨n, l, hl, hn⟩ := hall (ρ x) (by
    rw [kr.rechecking.wiring.contains_eq]
    exact k.live hx)
  have hv := (k.compiled.ready k.resolved hs).valid hl
  obtain ⟨n', hn', -⟩ := Layout.footprint_bare hv hn
  exact ⟨n', l.bare, k.layout_bare hs hr hx hl, hn'⟩

/-- What lies in no other node takes the same without fusion. -/
theorem takes_root (hroot : ∀ owner, ¬ s.LiesIn x owner) (ht : s.Takes x n) : r.Takes x n := by
  obtain ⟨_, -, kr⟩ := k.compiled.rechecked k.resolved hs
  obtain ⟨l, hl, hn⟩ := ht
  obtain ⟨m, hm, -⟩ := layout_eq_ok.1 hl
  obtain ⟨hρ, hx⟩ : ρ x = x ∧ g.contains x = true := by
    rw [← k.shortcut.live_iff k.compiled, k.resolved.relaid.wiring.contains_eq,
      ← kr.rechecking.wiring.contains_eq]
    exact contains_iff.2 ⟨m, hm⟩
  have hz := (k.compiled.ready k.resolved hs).unpadded_of_root hroot hl
  refine ⟨l, ?_, hn⟩
  rw [k.layout_bare hs hr hx (hρ.symm ▸ hl), ← Layout.bare_of_unpadded hz l.padding]
  rfl

/-- A plan is made without fusion, and the fused one is within it. -/
theorem within (hfresh : g.Fresh) (hplan : BufferPlan.ofGraph s = .ok plan) :
    ∃ plan', BufferPlan.ofGraph r = .ok plan' ∧ plan.Within plan' := by
  have hres := k.sound.resolved hr
  have hready := k.compiled.ready k.resolved hs
  have hnone : r.sharing.edges = [] := (hfresh.relaid hres.relaid).sharing
  have hsound : r.Sound := hres.relaid.wiring.sound k.sound
  have hpaired : r.Paired := by simp [Paired, hnone]
  have hall := (BufferPlan.ofGraph_ok_iff hready.sound hready.paired).1 ⟨plan, hplan⟩
  obtain ⟨plan', hplan'⟩ := (BufferPlan.ofGraph_ok_iff hsound hpaired).2 fun x hx =>
    k.takes_ok hs hr hall hx
  refine ⟨plan', hplan', BufferPlan.within_of_subperm ?_⟩
  refine (BufferPlan.partitions hready.sound hready.paired hplan).subperm_elements
    (BufferPlan.partitions hsound hpaired hplan') hnone fun buffer hb => ?_
  obtain ⟨root, ⟨hmem, hroot⟩, -⟩ := hready.exists_root hplan hb
  exact ⟨root, hmem, k.takes_root hs hr hroot (hready.takes_buffer hplan hb hmem)⟩

end Graph.Restored

/-- Fusing costs no memory. All nodes of a buffer take the whole of it, and one of them lies in no
other: the root. The graph compiles without fusion as well, and is resolved there on the same tensors
if and only if no removed identity hides the values of a pattern. Then nothing is left to recheck, a
plan is made, each root takes what its fused buffer takes, and the fused plan has no more buffers, no
more elements and no larger buffer. -/
theorem Graph.Built.fused_within {g h s : Graph} (hb : g.Built) {dynamic remove remove' : Bool}
    {p : Program} (hp : Program.build ⟨true, dynamic, remove⟩ g = .ok p)
    {tensors : List (NodeId × Tensor)} {values : InputValues}
    (hr : p.graph.resolve tensors = (h, .ok values)) {report : RecheckReport}
    (hs : h.recheck .standard = (s, .ok report))
    (hno : BufferPlan.ofGraph s ≠ .error (.fault .overflow)) :
    ∃ plan q, BufferPlan.ofGraph s = .ok plan ∧
      Program.build ⟨false, dynamic, remove'⟩ g = .ok q ∧
      (∀ buffer ∈ plan.buffers, (∀ x ∈ buffer.members, s.Takes x buffer.elements) ∧
        ∃! root, root ∈ buffer.members ∧ ∀ owner, ¬ s.LiesIn root owner) ∧
      ((∃ r values', q.graph.resolve tensors = (r, .ok values')) ↔ q.graph.Unhidden p.graph) ∧
      ∀ r values', q.graph.resolve tensors = (r, .ok values') →
        r.recheck .standard = (r, .ok ⟨0, []⟩) ∧
        (∀ buffer ∈ plan.buffers, ∀ root ∈ buffer.members, (∀ owner, ¬ s.LiesIn root owner) →
          r.Takes root buffer.elements) ∧
        ∃ plan', BufferPlan.ofGraph r = .ok plan' ∧ plan.Within plan' := by
  obtain ⟨q, hq⟩ : ∃ q, Program.build ⟨false, dynamic, remove'⟩ g = .ok q :=
    Graph.build_unfused_of_fused hp
  obtain ⟨-, -, hrelaid, hinf⟩ := hb.build_unfused hq
  obtain ⟨p', f, ρ, hp', -, hcut, hc⟩ := hb.build_fused hq (fun hover => by
    cases hp.symm.trans hover)
  obtain rfl : p' = p := Except.ok.inj (hp'.symm.trans hp)
  have hfresh := hb.fresh.relaid hrelaid
  have k : Restored q.graph f p'.graph h ρ tensors values :=
    ⟨hrelaid.wiring.sound hb.sound, hinf, hcut, hc, hc.sound'.resolved hr⟩
  have hready := hc.ready k.resolved hs
  obtain ⟨plan, hplan⟩ := (BufferPlan.ofGraph_onlyOverflow hready).eq_ok hno
  refine ⟨plan, q, hplan, hq, fun buffer hmem => ⟨fun x => hready.takes_buffer hplan hmem,
    hready.exists_root hplan hmem⟩, k.resolves_iff.1, fun r values' hr' => ⟨?_, ?_, ?_⟩⟩
  · have hres := k.sound.resolved hr'
    exact (hfresh.relaid hres.relaid).recheck (hres.relaid.wiring.sound k.sound)
  · exact fun buffer hmem root hin hroot =>
      k.takes_root hs hr' hroot (hready.takes_buffer hplan hmem hin)
  · exact k.within hs hr' hfresh hplan

/-- The five buffers of the sample become two. -/
theorem fused_within_sample : ∃ plan plan', BufferPlan.ofGraph preparedSample = .ok plan ∧
    BufferPlan.ofGraph (unfusedProgram.graph.resolve [(0, sampleTensor)]).1 = .ok plan' ∧
      plan.Within plan' ∧ plan.buffers.length = 2 ∧ plan'.buffers.length = 5 := by
  obtain ⟨plan, q, hplan, hq, -, -, hunfused⟩ := built_sample.fused_within
    (show Program.build ⟨true, true, true⟩ sample = .ok sampleProgram from rfl)
    (show sampleProgram.graph.resolve [(0, sampleTensor)] = (_, .ok _) from rfl)
    (show _ = (preparedSample, _) from rfl) (by nofun)
  obtain rfl := Except.ok.inj (hq.symm.trans
    (show Program.build ⟨false, true, true⟩ sample = .ok unfusedProgram from rfl))
  obtain ⟨-, -, plan', hplan', hwithin⟩ := hunfused _ _ rfl
  refine ⟨plan, plan', hplan, hplan', hwithin, ?_, ?_⟩
  · obtain rfl := Except.ok.inj (hplan.symm.trans rfl)
    rfl
  · obtain rfl := Except.ok.inj (hplan'.symm.trans rfl)
    rfl

/-- A permute that does nothing stands between a pattern and the reshape that takes it. -/
def veiledSample : Graph :=
  ((((empty.place "x" (.input (.plain (.ofSizes [4]) .f32)) []).place "q"
    (.input (.plain (.ofSizes [2]) .i64)) []).place "s" (.permute [0]) [1]).place "y"
      (.reshape (.fromInput 2) false) [0, 2]).place "z" (.permute [1, 0]) [3]

def veiledTensors : List (NodeId × Tensor) :=
  [(0, ⟨[4], .f32, List.replicate 16 0⟩),
    (1, ⟨[2], .i64, [2, 0, 0, 0, 0, 0, 0, 0, 2, 0, 0, 0, 0, 0, 0, 0]⟩)]

/-- With fusion the sample is planned. Without it the permute stays, the reshape never learns of its
pattern, and there is no run to compare with. -/
theorem not_resolved_veiledSample : veiledSample.Built ∧ ∃ p h values s report plan,
    Program.build .standard veiledSample = .ok p ∧
      p.graph.resolve veiledTensors = (h, .ok values) ∧
        h.recheck .standard = (s, .ok report) ∧ BufferPlan.ofGraph s = .ok plan ∧
          ∃ q, Program.build ⟨false, true, true⟩ veiledSample = .ok q ∧
            ∀ r values', q.graph.resolve veiledTensors ≠ (r, .ok values') :=
  ⟨Built.empty.place rfl |>.place rfl |>.place rfl |>.place rfl |>.place rfl,
    _, _, _, _, _, _, rfl, rfl, rfl, rfl, _, rfl, by nofun⟩

end BufferFusion
