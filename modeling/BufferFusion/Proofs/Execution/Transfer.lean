import BufferFusion.Proofs.Execution.Running
import BufferFusion.Proofs.Execution.Separate
import BufferFusion.Proofs.Inference.Reroute

/-!
# Values past shortcuts

What the nodes compute without the shortcuts they compute with them, on whatever layouts a recheck
has padded. For an identity has the values of its input, so those who read around it read the same.
-/
namespace BufferFusion

open Graph

namespace Infer

/-- A reshape has as many dims as its target says. -/
theorem Yields.rank_reshape {p : Option (List Float)} {target : ReshapeTarget} {copyZeros : Bool}
    {ins : List Layout} {l : Layout} (h : Yields p (.reshape target copyZeros) ins l) :
    l.rank = targetRank target := by
  cases h with
  | @reshape _ _ _ _ pattern shape read shaped =>
    cases pattern with
    | none =>
      obtain ⟨_, -, hs⟩ := Result.bind_eq_ok.1 shaped
      obtain rfl := Except.ok.inj hs
      exact List.length_replicate
    | some pattern =>
      refine (Shape.rank_reshape shaped).trans ?_
      cases target with
      | pattern values => exact congrArg List.length (Option.some.inj (Except.ok.inj read)).symm
      | fromInput rank =>
        cases p with
        | none => cases read
        | some values =>
          rw [readPattern] at read
          split at read
          · cases read
          · next hlength =>
            rw [← Option.some.inj (Except.ok.inj read), List.length_map]
            exact not_not.1 hlength

end Infer

namespace Graph

variable {g f c h r : Graph} {ρ : NodeId → NodeId} {tensors : List (NodeId × Tensor)}
  {values values' : InputValues} {v : NodeId → List Float} {x a : NodeId} {n m : Node} {l : Layout}

/-- A node has as many values as its layout has elements. -/
theorem Evaluated.count (h : g.Evaluated values v x) (hl : g.layout x = .ok l) :
    l.shape.count = .ok (some (v x).length) := by
  obtain ⟨_, l', sizes, -, hl', hs, hcount, -⟩ := h
  obtain rfl := Except.ok.inj (hl.symm.trans hl')
  rw [Shape.count, Shape.dims_of_sizes? hs, Dim.count_known]
  exact congrArg _ hcount

/-- The operations of a graph that is rechecked stay. -/
theorem Informed.recheck (k : c.Informed tensors values r) {report : Result RecheckReport}
    (hr : r.recheck .standard = (h, report)) (w : h.SameWiring r) :
    c.Informed tensors values h := by
  have hop : ∀ {x n m}, r.node? x = some n → h.node? x = some m → m.op = n.op := by
    intro x n m hn hm
    have := op_recheckAlong .standard r.order r x
    rw [show (Recheck.along .standard r.order r).1 = h from congrArg Prod.fst hr] at this
    exact op_eq_of_map this hn hm
  refine ⟨k.wiring.trans w.symm, fun hn hd => ?_, k.free, fun hn hm hne => ?_⟩
  · obtain ⟨m, l, xs, hb, hm, hmop, hlook⟩ := k.bound hn hd
    obtain ⟨m', hm', -⟩ := w.symm.node hm
    exact ⟨m', l, xs, hb, hm', (hop hm hm').trans hmop, hlook⟩
  · obtain ⟨m', hm', -⟩ := w.node hm
    exact (hop hm' hm).trans (k.same hn hm' hne)

/-- Where a reshape to no dims takes its pattern from a source, the source has no elements in `r`. -/
def HollowPatterns (c r : Graph) : Prop :=
  ∀ {x n copyZeros a s l}, c.node? x = some n → n.op = .reshape (.fromInput 0) copyZeros →
    n.inputs[1]? = some a → c.node? a = some s → s.op.declared?.isSome = true →
      r.layout a = .ok l → l.shape.count = .ok (some 0)

namespace Rerouted

variable (k : Rerouted g f c r ρ tensors values)
  (hv : ∀ x, r.contains x = true → r.Evaluated values v x)

include k hv

/-- A node that is bypassed has the values of its input. -/
theorem value_of_identity (hkeep : r.Keeps v) (hn : g.node? x = some n) (hx : ρ x ≠ x)
    (hin : n.inputs = [a]) : v x = v a := by
  obtain ⟨hmay, a', hin', hρ⟩ := k.shortcut.gone hn hx
  obtain rfl : a = a' := List.head_eq_of_cons_eq (hin.symm.trans hin')
  have hwire := k.resolved.relaid.wiring
  obtain ⟨m, hm, -, -, hmin, -⟩ := hwire.node hn
  have hop : m.op = n.op := k.resolved.same hn hm fun d hd => by
    simp [hd, Pass.mayBeIdentity] at hmay
  have hslot : r.input x 0 = .ok a := (input_eq_ok hm).2 (by rw [hmin, hin]; rfl)
  have hfeeds : g.Feeds a x := ⟨n, hn, by simp [hin]⟩
  have ha : g.contains a = true := k.sound.live hfeeds
  obtain ⟨_, ins, l, hm', hins, hl, hy, -⟩ := k.resolved.inferred x (contains_iff.2 ⟨m, hm⟩)
  obtain rfl := Option.some.inj (hm.symm.trans hm')
  have hla : r.layout a = .ok l := by
    rw [← k.layout_reroute ha, ← hρ, k.layout_reroute (contains_iff.2 ⟨n, hn⟩), hl]
  have hvx := hv x (contains_iff.2 ⟨m, hm⟩)
  obtain ⟨sizes, hs, -⟩ := hvx.length hl
  cases hnop : n.op with
  | input | constant | concatenation | crop | fullyConnected =>
    rw [hnop] at hmay
    cases hmay
  | reshape target copyZeros => exact hvx.reshape hm hslot hla hs (hop.trans hnop)
  | reorder format element =>
    rw [hvx.reorder hm hslot hla hs (hop.trans hnop)]
    exact (List.map_congr_left (hkeep hm (hop.trans hnop) hslot hla hl rfl)).trans (List.map_id _)
  | permute order =>
    have hperm := hvx.permute hm hslot hla hs (hop.trans hnop)
    rw [hnop] at hmay
    have hrange : order = List.range order.length := by simpa [Pass.mayBeIdentity] using hmay
    rw [hop, hnop] at hy
    obtain ⟨la, rfl⟩ : ∃ la, ins = [la] := by
      cases hy
      exact ⟨_, rfl⟩
    rw [hmin, hin] at hins
    obtain - | ⟨hla', -⟩ := hins
    obtain rfl := Except.ok.inj (hla.symm.trans hla')
    obtain ⟨hrank, hbij⟩ := hy.permute_order
    have hlen : order.length = sizes.length := hrank.trans (Layout.length_sizes hs).symm
    have hcount : (v a).length = sizes.prod := by
      obtain ⟨sizes', hs', hcount⟩ := (hv a (by rwa [← hwire.contains_eq])).length hla
      obtain rfl := Option.some.inj (hs.symm.trans hs')
      exact hcount
    refine Kernel.permute_eq_self hbij hlen ?_ hcount hperm
    refine Kernel.obstacle_of_pairwise (by simp) ?_ ?_
    · rw [hrange]
      exact List.pairwise_le_range.filter _
    · intro axis haxis
      rw [hrange] at haxis
      exact hlen ▸ List.mem_range.1 haxis

/-- A node that is bypassed has the values of the node that stands in for it. -/
theorem value_reroute (hkeep : r.Keeps v) (hx : g.contains x = true) : v (ρ x) = v x := by
  refine k.sound.feeds_induction (P := fun x => g.contains x = true → v (ρ x) = v x) ?_ x hx
  intro x ih hx
  by_cases hρ : ρ x = x
  · rw [hρ]
  obtain ⟨n, hn⟩ := contains_iff.1 hx
  obtain ⟨-, a, hin, hto⟩ := k.shortcut.gone hn hρ
  have hfeeds : g.Feeds a x := ⟨n, hn, by simp [hin]⟩
  rw [hto, ih a hfeeds (k.sound.live hfeeds), k.value_of_identity hv hkeep hn hρ hin]

/-- What is reshaped to no dims has one element. -/
theorem count_of_reshape {copyZeros : Bool} (hm : r.node? x = some m)
    (hop : m.op = .reshape (.fromInput 0) copyZeros) (ha : m.inputs[0]? = some a)
    (hl : r.layout a = .ok l) : l.shape.count = .ok (some 1) := by
  have hs := k.resolved.relaid.wiring.sound k.sound
  obtain ⟨_, ins, lx, hm', -, hlx, hy, -⟩ := k.resolved.inferred x (contains_iff.2 ⟨m, hm⟩)
  obtain rfl := Option.some.inj (hm.symm.trans hm')
  have hva := hv a (hs.live (Feeds.of_input hm ha))
  have hvx := hv x (contains_iff.2 ⟨m, hm⟩)
  obtain ⟨sizes, hsizes, -⟩ := hva.length hl
  have hone : (v x).length = 1 := by
    rw [hop] at hy
    obtain ⟨dims, hdims, hlength⟩ := hvx.length hlx
    have hrank := (Layout.length_sizes hdims).trans hy.rank_reshape
    rw [hlength, List.eq_nil_of_length_eq_zero hrank, List.prod_nil]
  rw [hva.count hl, ← hvx.reshape hm ((input_eq_ok hm).2 ha) hl hsizes hop, hone]

/-- What is known of a node are its values. -/
theorem eq_of_given? {xs : List Float} (h : r.given? values a = some xs) :
    v a = xs ∧ ∃ n, g.node? a = some n ∧ n.op.declared?.isSome = true := by
  obtain ⟨m, hm, hxs⟩ := Option.bind_eq_some_iff.1 h
  obtain ⟨n, hn, -⟩ := k.resolved.relaid.wiring.symm.node hm
  obtain ⟨m', l, sizes, hm', -, -, -, heval⟩ := hv a (contains_iff.2 ⟨m, hm⟩)
  obtain rfl := Option.some.inj (hm.symm.trans hm')
  by_cases hinput : ∃ d, n.op = .input d
  · obtain ⟨d, hd⟩ := hinput
    obtain ⟨m', realized, lanes, -, hm', hop, hlook⟩ := k.resolved.bound hn hd
    obtain rfl := Option.some.inj (hm.symm.trans hm')
    rw [Run.evaluate, hop] at heval
    simp only [(k.resolved.relaid.wiring.sound k.sound).id_eq hm, hlook, Except.ok.injEq] at heval
    simp only [hop, hlook, Option.some.injEq] at hxs
    exact ⟨heval.symm.trans hxs, n, hn, by rw [hd]; rfl⟩
  · have hne : ∀ d, n.op ≠ .input d := fun d hd => hinput ⟨d, hd⟩
    have hfree := k.resolved.informed.lookup_eq_none hn hne
    have hop := k.resolved.same hn hm hne
    split at hxs
    · next d ys hm =>
      obtain rfl := Option.some.inj hxs
      rw [Run.evaluate, hm] at heval
      exact ⟨(Except.ok.inj heval).symm, n, hn, by rw [← hop, hm]; rfl⟩
    · rw [hfree] at hxs
      cases hxs

theorem hollowPatterns_iff : c.HollowPatterns r ↔ c.EmptyPatterns r values := by
  have hdeclared : ∀ {a s}, c.node? a = some s → s.op.declared?.isSome = true →
      ∃ l, r.layout a = .ok l ∧ ∃ xs, r.given? values a = some xs ∧
        l.shape.count = .ok (some xs.length) := by
    intro a s hs hd
    obtain ⟨-, n, hn, -, -, -, hop⟩ := k.origin hs
    obtain ⟨xs, hxs⟩ := k.given?_of_declared hn (hop ▸ hd)
    have ha : r.contains a = true := by
      rw [← k.resolved.relaid.wiring.contains_eq]
      exact contains_iff.2 ⟨n, hn⟩
    obtain ⟨_, _, l, _, _, hl, -⟩ := k.resolved.inferred a ha
    exact ⟨l, hl, xs, hxs, (k.eq_of_given? hv hxs).1 ▸ (hv a ha).count hl⟩
  constructor
  · intro hhollow x n copyZeros a xs hn hop ha hxs
    obtain ⟨s, hs⟩ := contains_iff.1 (k.compiled.sound'.live (Feeds.of_input hn ha))
    obtain ⟨-, n', hn', -, -, -, hsop⟩ := k.origin hs
    obtain ⟨-, n'', hn'', hd⟩ := k.eq_of_given? hv hxs
    obtain rfl := Option.some.inj (hn'.symm.trans hn'')
    obtain ⟨l, hl, ys, hys, hcount⟩ := hdeclared hs (hsop ▸ hd)
    obtain rfl := Option.some.inj (hxs.symm.trans hys)
    have hzero := hcount.symm.trans (hhollow hn hop ha hs (hsop ▸ hd) hl)
    exact List.eq_nil_of_length_eq_zero (Option.some.inj (Except.ok.inj hzero))
  · intro hempty x n copyZeros a s l hn hop ha hs hd hl
    obtain ⟨l', hl', xs, hxs, hcount⟩ := hdeclared hs hd
    obtain rfl := Except.ok.inj (hl.symm.trans hl')
    rw [hcount, hempty hn hop ha hxs, List.length_nil]

section Final

variable (hkeep : r.Keeps v) (kh : c.Informed tensors values' h)
  (hlayout : ∀ {x l}, h.layout x = .ok l → r.layout x = .ok l.bare)

include hkeep kh hlayout

/-- The graph with the shortcuts computes the same values. -/
theorem evaluated (hlaid : ∀ {x}, h.contains x = true → ∃ l, h.layout x = .ok l)
    (hx : h.contains x = true) : h.Evaluated values' v x := by
  have hs := kh.wiring.sound k.compiled.sound'
  obtain ⟨n, hn⟩ := contains_iff.1 hx
  obtain ⟨-, hlook, m, hm, hid, hin, hop⟩ := k.node kh hn
  obtain ⟨l, hl⟩ := hlaid hx
  obtain ⟨m', lr, sizes, hm', hlr, hsizes, hcount, heval⟩ := hv x (contains_iff.2 ⟨m, hm⟩)
  obtain rfl := Option.some.inj (hm.symm.trans hm')
  obtain rfl := Except.ok.inj ((hlayout hl).symm.trans hlr)
  have hreads : ∀ slot lv, r.reads v x slot = .ok lv → h.reads v x slot = .ok lv := by
    intro slot lv hlv
    obtain ⟨a, la, dims, count, ha, hla, hdims, hproduct, hreserve, rfl⟩ := reads_eq_ok.1 hlv
    have hslot : n.inputs[slot]? = some (ρ a) := by
      rw [hin, List.getElem?_map, (input_eq_ok hm).1 ha, Option.map_some]
    have hlive : g.contains a = true := by
      rw [k.resolved.relaid.wiring.contains_eq]
      exact (k.resolved.relaid.wiring.sound k.sound).live (Feeds.of_input hm ((input_eq_ok hm).1 ha))
    obtain ⟨lh, hlh⟩ := hlaid (hs.live (Feeds.of_input hn hslot))
    have hbare : lh.bare = la := by
      have := hlayout hlh
      rw [k.layout_reroute hlive, hla] at this
      exact (Except.ok.inj this).symm
    rw [← k.value_reroute hv hkeep hlive]
    refine reads_eq_ok.2 ⟨ρ a, lh, dims, count, (input_eq_ok hn).2 hslot, hlh, ?_, hproduct,
      hreserve, rfl⟩
    rw [← hdims, ← hbare]
    rfl
  refine ⟨n, l, sizes, hn, hl, hsizes, hcount, ?_⟩
  have hcongr : Run.evaluate (h.reads v x) values' n l = Run.evaluate (h.reads v x) values n l :=
    Run.evaluate_congr (by rwa [hs.id_eq hn])
  rw [hcongr]
  have hsame : ∀ dims, l.bare.sizes = .ok dims → l.sizes = .ok dims := by
    simp only [Layout.sizes_eq_ok]
    exact fun _ h => h
  exact Run.evaluate_mono hreads hid (by rw [hin, List.length_map]) (by rw [hop]; exact .refl _)
    hsame heval

/-- Reorders that do nothing keep the values in the graph with the shortcuts. -/
theorem keeps : h.Keeps v := by
  intro x n format element a l l' hn hop ha hl hl' hbare
  obtain ⟨-, -, m, hm, -, hin, hmop⟩ := k.node kh hn
  have hslot := (input_eq_ok hn).1 ha
  rw [hin, List.getElem?_map, Option.map_eq_some_iff] at hslot
  obtain ⟨p, hp, rfl⟩ := hslot
  have hlive : g.contains p = true := by
    rw [k.resolved.relaid.wiring.contains_eq]
    exact (k.resolved.relaid.wiring.sound k.sound).live (Feeds.of_input hm hp)
  rw [k.value_reroute hv hkeep hlive]
  have hlp := hlayout hl
  rw [k.layout_reroute hlive] at hlp
  refine hkeep hm (hmop ▸ hop) ((input_eq_ok hm).2 hp) hlp (hlayout hl') ?_
  exact congrArg Layout.bare hbare

end Final

end Rerouted

end Graph

end BufferFusion
