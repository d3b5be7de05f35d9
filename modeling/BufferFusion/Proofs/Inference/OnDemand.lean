import BufferFusion.Program
import BufferFusion.Proofs.Inference.Complete

/-!
# Layouts on demand

For the layout of a single node not the whole graph has to be inferred. Only what the node depends on
is, as far as it has no layout yet, and it gets the layouts that the whole graph would be inferred to.
-/
namespace BufferFusion

open Relation

/-- A node without its layout. -/
def Node.bare (n : Node) : Node := { n with layout := none }

namespace Graph

variable {g h r : Graph} {values : InputValues} {L : NodeId → Layout} {done ids : List NodeId}
  {id target x : NodeId} {l : Layout}

theorem SameWiring.reaches_eq (w : g.SameWiring h) (a b : NodeId) :
    g.reaches a b = h.reaches a b := by
  have hout : g.outgoing = h.outgoing := funext w.outgoing_eq
  rw [reaches, reaches, hout, w.slots_length]

/-- Nodes that differ in their layouts at most, and do not differ in them. -/
theorem node?_eq_of_bare (hbare : (g.node? x).map Node.bare = (h.node? x).map Node.bare)
    (hl : g.layout x = .ok l) (hl' : h.layout x = .ok l) : g.node? x = h.node? x := by
  obtain ⟨n, hn, hnl⟩ := layout_eq_ok.1 hl
  obtain ⟨m, hm, hml⟩ := layout_eq_ok.1 hl'
  rw [hn, hm] at hbare
  have hrestore : ∀ n : Node, n.layout = some l → { n.bare with layout := some l } = n := by
    rintro ⟨⟩ rfl
    rfl
  rw [hn, hm, ← hrestore n hnl, ← hrestore m hml, Option.some.inj hbare]

/-- Resolution leaves alone whatever of a node is not its layout. -/
theorem map_resolveAlong {α : Type} {f : Node → α}
    (hf : ∀ n l, f { n with layout := some l } = f n) (target : NodeId) (ids : List NodeId)
    (g : Graph) (x : NodeId) :
    ((Program.resolveAlong target ids g).1.node? x).map f = (g.node? x).map f := by
  induction ids generalizing g with
  | nil => rfl
  | cons id ids ih =>
    simp only [Program.resolveAlong]
    split
    · exact ih g
    · split
      · rfl
      · exact (ih _).trans (map_setLayout hf g id x _)

/-- What a graph was inferred to fits it. -/
theorem Inferred.fitting (k : r.Inferred values) (w : g.SameWiring r)
    (hop : ∀ x, (r.node? x).map (·.op) = (g.node? x).map (·.op))
    (hL : ∀ x, g.contains x = true → r.layout x = .ok (L x)) (hs : g.Sound) :
    g.Fitting values L := by
  intro x n hn
  have hlive := contains_iff.2 ⟨n, hn⟩
  obtain ⟨m, ins, l, hm, hins, hl, hy, hv⟩ := k x (w.contains_eq x ▸ hlive)
  obtain ⟨m', hm', -, -, hin, -⟩ := w.node hn
  obtain rfl := Option.some.inj (hm.symm.trans hm')
  obtain rfl := Except.ok.inj (hl.symm.trans (hL x hlive))
  have hmop : m.op = n.op := op_eq_of_map (hop x) hn hm
  obtain rfl : ins = n.inputs.map L := hins.unique (by
    rw [hin, Lays, List.forall₂_map_right_iff, List.forall₂_same]
    exact fun a ha => hL a (hs.live ⟨n, hn, ha⟩))
  rw [hmop, w.pattern?_eq, pattern?, hin] at hy
  exact ⟨hy, hv⟩

/-- Resolution for `target` underway: of the nodes that are done those that `target` depends on have
the layouts that fit, and no other node has changed. -/
structure Demanding (g h : Graph) (L : NodeId → Layout) (target : NodeId) (done : List NodeId) :
    Prop where
  finding : Finding g h L (done.filter (g.reaches · target))
  untouched : ∀ y, y ∉ done.filter (g.reaches · target) → h.node? y = g.node? y

namespace Demanding

variable (k : Demanding g h L target done) (hs : g.Sound) (hfit : g.Fitting [] L)
  (hpart : ∀ x l, g.layout x = .ok l → l = L x)

include k hs hfit hpart

theorem step (hnew : id ∉ done) (hlive : g.contains id = true)
    (hready : ∀ a, g.Feeds a id → a ∈ done) : ∃ h', Demanding g h' L target (id :: done) ∧
      ∀ ids, Program.resolveAlong target (id :: ids) h = Program.resolveAlong target ids h' := by
  have hreach : h.reaches id target = g.reaches id target :=
    (k.finding.relaid.wiring.reaches_eq id target).symm
  by_cases hid : g.reaches id target = true
  swap
  · refine ⟨h, ?_, fun ids => by simp [Program.resolveAlong, hreach, hid]⟩
    have hfilter : (id :: done).filter (g.reaches · target) = done.filter (g.reaches · target) :=
      List.filter_cons_of_neg hid
    exact ⟨hfilter ▸ k.finding, hfilter ▸ k.untouched⟩
  have hfilter : (id :: done).filter (g.reaches · target) =
      id :: done.filter (g.reaches · target) := List.filter_cons_of_pos hid
  cases hl : (h.node? id).bind (·.layout) with
  | some l =>
    -- a layout that was there before: no one has touched this node
    refine ⟨h, ⟨⟨k.finding.relaid, k.finding.op, fun x hx => ?_⟩, fun y hy => ?_⟩, fun ids => by
      simp [Program.resolveAlong, hl]⟩
    · rw [hfilter] at hx
      rcases List.mem_cons.1 hx with rfl | hx
      · have hsame := k.untouched x fun hx => hnew (List.mem_filter.1 hx).1
        obtain ⟨n, hn, hnl⟩ := Option.bind_eq_some_iff.1 hl
        have hlx : g.layout x = .ok l := layout_eq_ok.2 ⟨n, hsame ▸ hn, hnl⟩
        rw [← hpart x l hlx]
        exact layout_eq_ok.2 ⟨n, hn, hnl⟩
      · exact k.finding.found x hx
    · rw [hfilter] at hy
      exact k.untouched y fun h => hy (List.mem_cons_of_mem _ h)
  | none =>
    have hready' : ∀ a, g.Feeds a id → a ∈ done.filter (g.reaches · target) := fun a hf =>
      List.mem_filter.2 ⟨hready a hf, (hs.reaches_iff (hs.live hf)).2
        (.head hf ((hs.reaches_iff hlive).1 hid))⟩
    obtain ⟨hinfer, k'⟩ := k.finding.step hs hfit hlive hready'
    refine ⟨h.setLayout id (L id), ⟨hfilter ▸ k', fun y hy => ?_⟩, fun ids => by
      simp [Program.resolveAlong, hreach, hid, hl, hinfer]⟩
    rw [hfilter, List.mem_cons, not_or] at hy
    rw [node?_setLayout, if_neg (Ne.symm hy.1), k.untouched y hy.2]

theorem along (ho : g.Ordered done ids) : ∃ h',
    Program.resolveAlong target ids h = (h', .ok ()) ∧
      Demanding g h' L target (ids.reverse ++ done) := by
  induction ids generalizing h done with
  | nil => exact ⟨h, rfl, k⟩
  | cons id ids ih =>
    obtain ⟨hnew, hlive, hready, hrest⟩ := ho
    obtain ⟨h₁, k₁, hstep⟩ := k.step hs hfit hpart hnew hlive hready
    obtain ⟨h', hrun, k'⟩ := ih k₁ hrest
    rw [List.reverse_cons, List.append_assoc, List.singleton_append]
    exact ⟨h', (hstep ids).trans hrun, k'⟩

end Demanding

theorem Sound.live_of_reaches (hs : g.Sound) (ht : g.contains target = true)
    (h : ReflTransGen g.Feeds x target) : g.contains x = true := by
  rcases h.cases_head with rfl | ⟨_, hf, -⟩
  · exact ht
  · exact hs.live hf

/-- The nodes that `target` depends on become what they are in the inferred graph. -/
theorem Sound.resolveAlong_order (hs : g.Sound) {changed : Bool}
    (hi : InferenceTable.standard.inferGraph [] g = (r, .ok changed))
    (hpart : ∀ x l, g.layout x = .ok l → r.layout x = .ok l) (ht : g.contains target = true) :
    ∃ h, Program.resolveAlong target g.order g = (h, .ok ()) ∧ g.Relaid h ∧
      (∀ y, ReflTransGen g.Feeds y target → h.node? y = r.node? y) ∧
        ∀ y, ¬ ReflTransGen g.Feeds y target → h.node? y = g.node? y := by
  obtain ⟨hrelaid, hinferred⟩ := hs.inferGraph hi
  have hbare := map_inferGraph (f := Node.bare) (fun _ _ => rfl) hi
  have hop := map_inferGraph (f := Node.op) (fun _ _ => rfl) hi
  obtain ⟨L, hL⟩ := hinferred.exists_layouts
  simp only [← hrelaid.wiring.contains_eq] at hL
  have hfit : g.Fitting [] L := hinferred.fitting hrelaid.wiring hop hL hs
  have hpart' : ∀ x l, g.layout x = .ok l → l = L x := fun x l hl => by
    obtain ⟨n, hn, -⟩ := layout_eq_ok.1 hl
    exact Except.ok.inj ((hpart x l hl).symm.trans (hL x (contains_iff.2 ⟨n, hn⟩)))
  have k : Demanding g g L target [] :=
    ⟨⟨.refl g, fun _ => rfl, by simp⟩, fun _ _ => rfl⟩
  obtain ⟨h, hrun, k'⟩ := k.along hs hfit hpart' hs.ordered
  have hbare' := map_resolveAlong (f := Node.bare) (fun _ _ => rfl) target g.order g
  rw [hrun] at hbare'
  refine ⟨h, hrun, k'.finding.relaid, fun y hy => ?_, fun y hy => k'.untouched y fun hmem => ?_⟩
  · have hlive := hs.live_of_reaches ht hy
    have hfound := k'.finding.found y (List.mem_filter.2
      ⟨by simpa using hs.mem_order.2 hlive, (hs.reaches_iff hlive).2 hy⟩)
    exact node?_eq_of_bare ((hbare' y).trans (hbare y).symm) hfound (hL y hlive)
  · obtain ⟨hmem, hreach⟩ := List.mem_filter.1 hmem
    have hlive := hs.mem_order.1 (by simpa using hmem)
    exact hy ((hs.reaches_iff hlive).1 hreach)

end Graph

namespace Program

variable {p : Program} {r : Graph}

/-- Where the graph can be inferred, and has the layouts found there at some nodes and none at the
others, any node can be asked for its layout. It answers with the one that is found there. What it had
to find out for that stays with the nodes it depends on; nothing else has changed. -/
theorem layout_on_demand (hs : p.graph.Sound) {changed : Bool}
    (hi : InferenceTable.standard.inferGraph [] p.graph = (r, .ok changed))
    (hpart : ∀ x l, p.graph.layout x = .ok l → r.layout x = .ok l) {x : NodeId} {n : Node}
    (hn : p.graph.node? x = some n) :
    ∃ l p', r.layout x = .ok l ∧ p.layout n.name true = (p', .ok l) ∧
      (n.layout.isSome = true → p' = p) ∧
      (n.layout = none → p' = { p with graph := p'.graph } ∧ p.graph.Relaid p'.graph ∧
        (∀ y, ReflTransGen p.graph.Feeds y x → p'.graph.node? y = r.node? y) ∧
          ∀ y, ¬ ReflTransGen p.graph.Feeds y x → p'.graph.node? y = p.graph.node? y) := by
  have hfind : p.graph.find n.name = .ok x := by rw [Graph.find, hs.named hn]
  have hget : p.graph.get x = .ok n := Graph.get_eq_ok.2 hn
  have hlive := Graph.contains_iff.2 ⟨n, hn⟩
  obtain ⟨hrelaid, hinferred⟩ := hs.inferGraph hi
  obtain ⟨L, hL⟩ := hinferred.exists_layouts
  have hlx := hL x (hrelaid.wiring.contains_eq x ▸ hlive)
  cases hl : n.layout with
  | some l =>
    refine ⟨l, p, hpart x l (Graph.layout_eq_ok.2 ⟨n, hn, hl⟩), ?_, fun _ => rfl, fun hnone =>
      absurd hnone (Option.some_ne_none l)⟩
    simp only [layout, hfind, hget, hl]
  | none =>
    obtain ⟨h, hrun, hrelaid', hbefore, hother⟩ := hs.resolveAlong_order hi hpart hlive
    have hlh : h.layout x = .ok (L x) := by
      rw [← hlx, Graph.layout, Graph.layout, Graph.get, Graph.get, hbefore x .refl]
    refine ⟨L x, { p with graph := h }, hlx, ?_, fun hsome => absurd hsome Bool.false_ne_true,
      fun _ => ⟨rfl, hrelaid', hbefore, hother⟩⟩
    simp only [layout, hfind, hget, hl, hrun, hlh, Bool.true_eq_false, if_false]

/-- A matrix with its layout. Without one: a permute of it, a row of the permuted matrix, and a copy of
the matrix. -/
def partialProgram : Program :=
  { graph := (((((Graph.empty.place "matrix" (.input (.plain (.ofSizes [3, 2]) .f32)) []).place
      "turned" (.permute [1, 0]) [0]).place "row" (.reshape (.pattern [1, 6]) false) [1]).place
        "copy" (.reorder .bfyx .f32) [0]).setLayout 0 (.plain (.ofSizes [3, 2]) .f32))
    config := .standard
    limit := none }

theorem sound_partialProgram : partialProgram.graph.Sound :=
  ((Graph.Built.empty.place rfl |>.place rfl |>.place rfl |>.place rfl).reachable.setLayout _ _).sound

/-- Asked for the layout of the permuted matrix, the program infers that node only. -/
theorem layout_on_demand_partialProgram : ∃ p',
    partialProgram.layout "turned" true = (p', .ok (.plain (.ofSizes [2, 3]) .f32)) ∧
      p'.graph.layout 1 = .ok (.plain (.ofSizes [2, 3]) .f32) ∧
        p'.graph.node? 2 = partialProgram.graph.node? 2 ∧
          p'.graph.node? 3 = partialProgram.graph.node? 3 := by
  have hs := sound_partialProgram
  have hpart : ∀ x l, partialProgram.graph.layout x = .ok l →
      (InferenceTable.standard.inferGraph [] partialProgram.graph).1.layout x = .ok l := by
    intro x l hl
    match x with
    | 0 => exact hl
    | 1 | 2 | 3 => cases hl
    | _ + 4 => cases hl
  obtain ⟨l, p', hl, hrun, -, hnew⟩ := layout_on_demand hs rfl hpart (x := 1) rfl
  obtain ⟨-, -, hbefore, hother⟩ := hnew rfl
  obtain rfl := Except.ok.inj hl
  refine ⟨p', hrun, ?_, hother 2 fun h => ?_, hother 3 fun h => ?_⟩
  · rw [Graph.layout, Graph.get, hbefore 1 .refl]
    rfl
  · exact absurd ((hs.reaches_iff rfl).2 h) (by decide)
  · exact absurd ((hs.reaches_iff rfl).2 h) (by decide)

end Program

end BufferFusion
