import BufferFusion.Proofs.Execution.Planned
import BufferFusion.Proofs.Pass.Orders

/-!
# Rechecking what is known already

Resolving throws the padding away that fusion installed, and rechecking builds it up again. Where
every shape is known before, the recheck sees at each node what fusion saw there: it makes the same
decisions, and a graph is left that differs from the compiled one in nothing.
-/
namespace BufferFusion

open Graph Pass

namespace Sharing

variable {u : SharingEdge} {es us : List SharingEdge} {s : Sharing}

theorem refreshEdge_of_mem (h : Once es) (hu : u ∈ es) : (refreshEdge u es).1 = es := by
  induction es with
  | nil => rfl
  | cons e es ih =>
    simp only [refreshEdge]
    split
    · next hends =>
      obtain rfl := h.eq List.mem_cons_self hu hends.2
      rfl
    · next hends =>
      rcases List.mem_cons.1 hu with rfl | hu
      · exact absurd ⟨rfl, rfl⟩ hends
      · rw [ih (List.nodup_cons.1 h).2 hu]

/-- A refresh to the placements that are there changes nothing. -/
theorem refresh_of_mem (h : Once s.edges) (hu : ∀ u ∈ us, u ∈ s.edges) : (s.refresh us).1 = s := by
  induction us with
  | nil => rfl
  | cons u us ih =>
    simp only [refresh, refreshEdge_of_mem h (hu u List.mem_cons_self)]
    exact ih fun u hmem => hu u (List.mem_cons_of_mem _ hmem)

end Sharing

namespace Recheck

variable {g : Graph} {ids : List NodeId}

/-- Where no node is optimized, there is nothing to recheck. -/
theorem along_of_not_optimized (t : FusionRules)
    (h : ∀ id ∈ ids, ∃ s, g.state? id = some s ∧ s.isOptimized = false) :
    along t ids g = (g, .ok ⟨0, []⟩) := by
  induction ids with
  | nil => rfl
  | cons id ids ih =>
    obtain ⟨s, hst, hs⟩ := h id List.mem_cons_self
    rw [along_cons_of_not_optimized t hst hs]
    exact ih fun x hx => h x (List.mem_cons_of_mem _ hx)

end Recheck

namespace Graph

variable {b c g h : Graph} {d : NodeId → Decision} {all done ids : List NodeId} {id x : NodeId}

/-- A graph without decisions has nothing to recheck. -/
theorem Fresh.recheck (hf : g.Fresh) (hs : g.Sound) : g.recheck .standard = (g, .ok ⟨0, []⟩) := by
  refine Recheck.along_of_not_optimized _ fun x hx => ⟨.unanalyzed, ?_, rfl⟩
  obtain ⟨n, hn⟩ := contains_iff.1 (hs.ordered.live x hx)
  rw [state?, hn, Option.map_some, hf.state hn]

/-- A recheck of the compiled graph `c` that has come as far as fusion was when it had made `g`: the
layouts are those of `g`, and all the rest is that of `c` already. -/
structure Retraces (c g h : Graph) : Prop where
  wiring : g.SameWiring h
  layout : ∀ x, h.layout x = g.layout x
  state : ∀ x, h.state? x = c.state? x
  assumption : ∀ x, (h.node? x).map (·.assumption) = (c.node? x).map (·.assumption)
  sharing : h.sharing = c.sharing

namespace Retraces

variable (r : Retraces c g h)

include r

/-- A rejected node is not looked at again, and it has changed no layout. -/
theorem skip (reason : RejectReason) : Retraces c (carryOut g id (.rejected reason)) h where
  wiring := (sameWiring_setState ..).trans r.wiring
  layout := fun x => (r.layout x).trans (layout_setState ..).symm
  state := r.state
  assumption := r.assumption
  sharing := r.sharing

variable (hb : b.Sound) (kc : b.Follows d c all)

include hb kc

/-- The recheck sees what fusion saw. That a node is a slice of its consumer by now does not count
as lying elsewhere. -/
theorem alikeAt (k : b.Follows d g done) (hsub : ∀ x ∈ done, x ∈ all) (hid : id ∉ done)
    (hready : ∀ a, b.Feeds a id → a ∈ done) : g.AlikeAt h id := by
  refine ⟨r.wiring, r.layout id, fun _ => r.layout _, fun {a} hf => ?_⟩
  have hf := k.wiring.feeds hf
  have ha := hready a hf
  refine taken_congr k.once (r.sharing ▸ kc.once) ?_ fun e he hne => ?_
  · rw [r.state, kc.state?_of_mem hb (hsub a ha), k.state?_of_mem hb ha]
  · rw [r.sharing, kc.mem_edges, k.mem_edges_of_feeds hb hf hid ha he]
    constructor
    · rintro ⟨i, hi, hmem⟩
      rcases kc.edges_cases hb hf hi hmem he with rfl | ⟨-, ho⟩
      · exact hmem
      · exact absurd ho hne
    · exact fun hmem => ⟨a, hsub a ha, hmem⟩

/-- An optimized node gets the layouts that it asked for, and all else that it asked for it has. -/
theorem renew {p : Proposal} (hd : d id = .eligible p) (hid : id ∈ all)
    (hj : FusionRules.standard.judge h id = .ok (.eligible p)) :
    Retraces c (carryOut g id (.eligible p)) (Recheck.renew h id p) := by
  have a := Recheck.renewed hj
  have hedges : ∀ e ∈ p.edges, e ∈ c.sharing.edges := fun e he =>
    kc.mem_edges.2 ⟨id, hid, by rw [hd]; exact he⟩
  constructor
  · exact (sameWiring_carryOut ..).trans (r.wiring.trans a.wiring.symm)
  · intro x
    rw [a.layout, Decision.layout_carryOut]
    exact layout_setLayouts_congr (fun y => (r.wiring.contains_eq y).symm) r.layout _ x
  · intro x
    rw [a.state, state?_setState, r.state]
    split
    · next hx =>
      subst hx
      rw [kc.state?_of_mem hb hid, Option.map_map, hd]
      rfl
    · rfl
  · exact fun x => (a.assumption x).trans (r.assumption x)
  · rw [a.sharing, r.sharing, Sharing.refresh_of_mem kc.once hedges]

end Retraces

/-- The recheck goes through the nodes as fusion did and finds nothing to take back. -/
theorem Retraces.along (hu : b.Unfused) (kc : b.Follows d c all) (hall : ∀ x ∈ all, b.DecidedAt d x)
    (hsub : ∀ x ∈ done, x ∈ all) (hids : ∀ x ∈ ids, x ∈ all) (ho : b.Ordered done ids)
    (k : b.Follows d g done) (r : Retraces c g h) :
    ∃ f checked g', Recheck.along .standard ids h = (f, .ok ⟨checked, []⟩) ∧
      b.Follows d g' (ids.reverse ++ done) ∧ Retraces c g' f := by
  induction ids generalizing g h done with
  | nil => exact ⟨h, 0, g, rfl, k, r⟩
  | cons id ids ih =>
    obtain ⟨hid, hlive, hready, hrest⟩ := ho
    have hmem : id ∈ all := hids id List.mem_cons_self
    have hd := (hall id hmem).decide_eq hu.sound k hid hready
    obtain ⟨-, hstep⟩ := k.step hu hid hlive hready hd
    have hsub' : ∀ x ∈ id :: done, x ∈ all := fun x hx =>
      (List.mem_cons.1 hx).elim (fun he => he ▸ hmem) (hsub x)
    have hids' : ∀ x ∈ ids, x ∈ all := fun x hx => hids x (List.mem_cons_of_mem _ hx)
    have hst : h.state? id = some (d id).state := by
      obtain ⟨n, hn⟩ := contains_iff.1 hlive
      rw [r.state, kc.state?_of_mem hu.sound hmem, hn, Option.map_some]
    rw [List.reverse_cons, List.append_assoc]
    cases hdec : d id with
    | rejected reason =>
      rw [hdec] at hst hstep
      rw [Recheck.along_cons_of_not_optimized _ hst rfl]
      exact ih hsub' hids' hrest hstep (r.skip reason)
    | eligible p =>
      rw [hdec] at hst hstep hd
      have halike : g.AlikeAt h id := r.alikeAt hu.sound kc k hsub hid hready
      have hj : FusionRules.standard.judge h id = .ok (.eligible p) := by
        rw [halike.judge_eq (k.wiring.symm.sound hu.sound)]
        exact judge_of_decide hd
      obtain ⟨f, checked, g', hf, k', r'⟩ :=
        ih hsub' hids' hrest hstep (r.renew hu.sound kc hdec hmem hj)
      refine ⟨f, checked + 1, g', ?_, k', r'⟩
      rw [Recheck.along_cons_of_eligible hst rfl hj, hf]
      rfl

end Graph

theorem Layout.Refines.eq_of_isStatic {l l' : Layout} (h : l'.Refines l) (hs : l.isStatic = true)
    (hl : l.padding = .zero l.rank) (hl' : l'.padding = .zero l'.rank) : l' = l := by
  obtain ⟨shape', element', format', padding'⟩ := l'
  obtain ⟨shape, element, format, padding⟩ := l
  obtain ⟨hshape, rfl, rfl⟩ := h
  obtain rfl := hshape.eq_of_isStatic hs
  simp only at hl hl'
  rw [hl, hl']
  rfl

variable {g b c r : Graph} {tensors : List (NodeId × Tensor)} {values : InputValues}

/-- Where the shapes are known before, resolving finds the layouts that fusion started from. -/
theorem Compiled.layout_resolve (k : Compiled b c)
    (hstatic : ∀ {x l}, c.layout x = .ok l → l.isStatic = true)
    (hr : c.resolve tensors = (r, .ok values)) (x : NodeId) : r.layout x = b.layout x := by
  obtain ⟨done, kf⟩ := k.fused
  have w : b.SameWiring c := kf.fusing.wiring.symm
  have kr := (w.sound k.sound).resolved hr
  have wr : b.SameWiring r := w.trans kr.relaid.wiring
  cases hx : b.node? x with
  | none =>
    rw [Graph.layout, Graph.layout, get_eq_error hx, get_eq_error (wr.node?_eq_none hx)]
  | some n =>
    have hlive : b.contains x = true := contains_iff.2 ⟨n, hx⟩
    obtain ⟨_, _, l, _, -, -, hl, -⟩ := k.laid.yielded x hlive
    obtain ⟨_, _, l', -, -, hl', -⟩ := kr.inferred x (wr.contains_eq x ▸ hlive)
    have hop : ∀ x n m, b.node? x = some n → c.node? x = some m → m.op = n.op :=
      fun x _ _ => op_eq_of_map (k.op x)
    have hrefines : l'.Refines l := kr.refines k.sound k.laid w hop hl hl'
    obtain ⟨padding, hc, -⟩ := kf.padded.layout hl
    have hs := hstatic hc
    have heq : l' = l :=
      hrefines.eq_of_isStatic hs (k.laid.layout hl).1 (kr.inferred.layout hl').1
    rw [hl, hl', heq]

/-- Resolving and rechecking a compiled graph whose shapes are all known gives that graph back: the
decisions, the assumptions, the padded layouts and the edges of the shared buffers, in their order.
Nothing is demoted. -/
theorem Graph.Built.recheck_static (hb : g.Built) {config : BuildConfig} {p : Program}
    (hp : Program.build config g = .ok p)
    (hstatic : ∀ x l, p.graph.layout x = .ok l → l.isStatic = true)
    (hr : p.graph.resolve tensors = (r, .ok values)) :
    ∃ f checked, r.recheck .standard = (f, .ok ⟨checked, []⟩) ∧
      (∀ x, f.state? x = p.graph.state? x ∧ f.layout x = p.graph.layout x ∧
        (f.node? x).map (·.assumption) = (p.graph.node? x).map (·.assumption)) ∧
      f.sharing.edges = p.graph.sharing.edges := by
  obtain ⟨b, k, hcase⟩ := hb.fusion hp
  generalize p.graph = c at hstatic hr k hcase ⊢
  have hlayout := k.layout_resolve (hstatic _ _) hr
  obtain ⟨_, kf⟩ := k.fused
  have w : b.SameWiring c := kf.fusing.wiring.symm
  have hrelaid := ((w.sound k.sound).resolved hr).relaid
  have horder : r.order = b.order := (w.trans hrelaid.wiring).order_eq.symm
  rw [Graph.recheck, horder]
  rcases hcase with rfl | ⟨fused, hfuse⟩
  · refine ⟨r, 0, Recheck.along_of_not_optimized _ fun id hid => ?_, fun x => ?_, ?_⟩
    · obtain ⟨n, hn⟩ := contains_iff.1 (k.sound.mem_order.1 hid)
      refine ⟨.unanalyzed, ?_, rfl⟩
      rw [hrelaid.state, state?, hn, Option.map_some, k.fresh.state hn]
    · exact ⟨hrelaid.state x, hlayout x, hrelaid.assumption x⟩
    · rw [hrelaid.sharing]
  · have hu : b.Unfused := ⟨k.sound, k.fresh.state, k.fresh.sharing, k.laid.yielded⟩
    have ho := k.sound.ordered
    obtain ⟨d, -, hd⟩ := (hu.follows fun _ => .rejected .noFusionRule).exists_decided hu ho
      (by rw [hfuse]; rintro ⟨⟩)
    obtain ⟨c', hc', kc⟩ := (hu.follows d).along hu ho hd
    obtain rfl : c' = c := by
      rw [hfuse] at hc'
      exact (Prod.mk.inj hc').1.symm
    have hmem : ∀ x, x ∈ b.order.reverse ++ [] ↔ x ∈ b.order := by simp
    have hretraces : Retraces c' b r :=
      ⟨w.trans hrelaid.wiring, hlayout, hrelaid.state, hrelaid.assumption, hrelaid.sharing⟩
    obtain ⟨f, checked, g', hf, kg', rf⟩ := hretraces.along hu kc
      (fun x hx => hd x ((hmem x).1 hx)) (by simp) (fun x hx => (hmem x).2 hx) ho (hu.follows d)
    refine ⟨f, checked, hf, fun x => ⟨rf.state x, ?_, rf.assumption x⟩, by rw [rf.sharing]⟩
    rw [rf.layout]
    exact layout_congr ((kg'.node x).trans (kc.node x).symm)

/-- The sample executed up to the kernels is the sample as it was compiled: the transposes have the
padding of their slices again. -/
theorem recheck_static_sample : ∃ f checked, (sampleProgram.graph.resolve
    [(0, ⟨[2, 2], .f32, List.replicate 16 0⟩)]).1.recheck .standard = (f, .ok ⟨checked, []⟩) ∧
      (∀ x, f.state? x = sampleProgram.graph.state? x ∧
        f.layout x = sampleProgram.graph.layout x ∧ (f.node? x).map (·.assumption) =
          (sampleProgram.graph.node? x).map (·.assumption)) ∧
      f.sharing.edges = sampleProgram.graph.sharing.edges := by
  have hnodes : ∀ n ∈ sampleProgram.graph.nodes, n.layout.all (·.isStatic) = true := by decide
  have hstatic : ∀ x l, sampleProgram.graph.layout x = .ok l → l.isStatic = true := by
    intro x l hl
    obtain ⟨n, hn, hnl⟩ := layout_eq_ok.1 hl
    have hall := hnodes n (mem_nodes.2 ⟨x, hn⟩)
    rwa [hnl] at hall
  have hbuild : Program.build .standard sample = .ok sampleProgram := rfl
  exact built_sample.recheck_static hbuild hstatic (show sampleProgram.graph.resolve
    [(0, ⟨[2, 2], .f32, List.replicate 16 0⟩)] = (_, .ok _) from rfl)

end BufferFusion
