import BufferFusion.Proofs.Execution.Static
import BufferFusion.Proofs.Inference.Complete
import BufferFusion.Proofs.Pass.Shortcut

/-!
# Resolving past shortcuts

A graph and one that shortcuts have been taken in, resolved on the same tensors. Wherever the first
one can be resolved, so can the second, to the same layouts. There is one exception: a removed
identity hid the values of its source from a reshape that takes its pattern from there. Without the
identity these values are known, and they are the pattern of a reshape to no dims only where there
are none.
-/
namespace BufferFusion

namespace Infer

variable {p q : Option (List Float)} {op : Operation} {ins rest : List Layout} {a l : Layout}

/-- Only a reshape looks for its pattern. -/
theorem Yields.congr (h : Yields p op ins l)
    (hop : ∀ rank copyZeros, op ≠ .reshape (.fromInput rank) copyZeros) : Yields q op ins l := by
  cases h with
  | input => exact .input
  | constant => exact .constant
  | permute length bijective => exact .permute length bijective
  | @reshape target copyZeros a rest pattern shape read shaped =>
    cases target with
    | pattern values => exact .reshape read shaped
    | fromInput rank => exact absurd rfl (hop rank copyZeros)
  | concatenation inside joined => exact .concatenation inside joined
  | crop offsets_length sizes_length fits => exact .crop offsets_length sizes_length fits
  | reorder fitted => exact .reorder fitted
  | fullyConnected data_depth weights_dims depths bias =>
    exact .fullyConnected data_depth weights_dims depths bias

/-- A pattern that is not known leaves known dims only where there are none. -/
theorem Yields.rank_of_unknown {rank : Nat} {copyZeros : Bool}
    (h : Yields none (.reshape (.fromInput rank) copyZeros) (a :: rest) l)
    (hl : l.isStatic = true) : rank = 0 ∧ l = .plain ⟨[]⟩ a.element := by
  cases h with
  | @reshape _ _ _ _ pattern shape read shaped =>
    obtain rfl := Except.ok.inj read
    obtain ⟨_, -, hs⟩ := Result.bind_eq_ok.1 shaped
    obtain rfl := Except.ok.inj hs
    cases rank with
    | zero => exact ⟨rfl, rfl⟩
    | succ n =>
      have hl : (Shape.unknowns (n + 1)).isStatic = true := hl
      rw [Shape.isStatic_iff_unknown] at hl
      simp [Shape.unknowns, List.replicate_succ] at hl

/-- A single element can be reshaped to no dims. -/
theorem yields_scalar {copyZeros : Bool} (ha : a.shape.count = .ok (some 1)) :
    Yields (some []) (.reshape (.fromInput 0) copyZeros) (a :: rest) (.plain ⟨[]⟩ a.element) := by
  have hread : readPattern (some []) (.fromInput 0) = .ok (some []) := rfl
  refine .reshape hread ?_
  rw [reshaped, Shape.reshape]
  simp only [Shape.patternDims, ha]
  rfl

end Infer

namespace Graph

variable {g f c b h r : Graph} {ρ : NodeId → NodeId} {tensors : List (NodeId × Tensor)}
  {values values' : InputValues} {L : NodeId → Layout} {x a : NodeId} {n m : Node}

/-- A graph with the operations and the values that tensors give it. -/
structure Informed (g : Graph) (tensors : List (NodeId × Tensor)) (values : InputValues)
    (h : Graph) : Prop where
  wiring : g.SameWiring h
  bound : ∀ {x n d}, g.node? x = some n → n.op = .input d → ∃ m realized lanes,
    Bound tensors n realized lanes ∧ h.node? x = some m ∧ m.op = .input realized ∧
      values.lookup x = some lanes
  free : ∀ {x}, (∀ n d, g.node? x = some n → n.op ≠ .input d) → values.lookup x = none
  same : ∀ {x n m}, g.node? x = some n → h.node? x = some m → (∀ d, n.op ≠ .input d) → m.op = n.op

theorem BoundInputs.informed (k : BoundInputs g tensors values b) : g.Informed tensors values b where
  wiring := k.relaid.wiring
  bound := fun hn hd =>
    let ⟨_, _, hb, hnode, hlook⟩ := k.input hn hd
    ⟨_, _, _, hb, hnode, rfl, hlook⟩
  free := fun hx => (k.other hx).2
  same := fun {x n m} hn hm hne => by
    have hx : ∀ n d, g.node? x = some n → n.op ≠ .input d := fun n' d hn' => by
      obtain rfl := Option.some.inj (hn.symm.trans hn')
      exact hne d
    exact relaid_op_eq (k.other hx).1 hn hm

theorem Resolved.informed (k : g.Resolved tensors values r) : g.Informed tensors values r :=
  ⟨k.relaid.wiring, k.bound, k.free, k.same⟩

theorem Informed.lookup_eq_none (k : g.Informed tensors values h) (hn : g.node? x = some n)
    (hne : ∀ d, n.op ≠ .input d) : values.lookup x = none :=
  k.free fun n' d hn' => by
    obtain rfl := Option.some.inj (hn.symm.trans hn')
    exact hne d

theorem Bound.congr {l : Layout} {xs : List Float} (h : Bound tensors n l xs) (hid : m.id = n.id)
    (hname : m.name = n.name) (hop : m.op = n.op) : Bound tensors m l xs := by
  obtain ⟨d, t, hd, ht, hb⟩ := h
  refine ⟨d, t, hop.trans hd, hid ▸ ht, ?_⟩
  rwa [bindInput, hname]

/-- Tensors bind an input in one way. -/
theorem Bound.unique {l l' : Layout} {xs ys : List Float} (h : Bound tensors n l xs)
    (h' : Bound tensors n l' ys) : l' = l ∧ ys = xs := by
  obtain ⟨d, t, hd, ht, hb⟩ := h
  obtain ⟨d', t', hd', ht', hb'⟩ := h'
  obtain rfl := Operation.input.inj (hd.symm.trans hd')
  obtain rfl := Option.some.inj (ht.symm.trans ht')
  exact Prod.mk.inj (Except.ok.inj (hb'.symm.trans hb))

namespace Shortcut

section

variable (k : Shortcut g f ρ) (hc : Compiled f c)

include k hc

/-- The node that a compiled node comes from. -/
theorem origin (hn : c.node? x = some n) : ρ x = x ∧ ∃ m, g.node? x = some m ∧ n.id = m.id ∧
    n.name = m.name ∧ n.inputs = m.inputs.map ρ ∧ n.op = m.op := by
  obtain ⟨n', hn', hid, hname, hin, -⟩ := hc.wiring.node hn
  have hop : n.op = n'.op := hc.op_eq hn' hn
  obtain ⟨hx, m, hm, rfl⟩ := k.node hn'
  exact ⟨hx, m, hm, hid.symm, hname.symm, hin.symm, hop⟩

theorem live_iff : c.contains x = true ↔ ρ x = x ∧ g.contains x = true := by
  rw [hc.wiring.contains_eq, k.contains_iff]

variable (kr : g.Informed tensors values r) (kc : c.Informed tensors values' h)

include kr kc

/-- The node in the same place before the shortcuts. -/
theorem informed_node (hn : h.node? x = some n) :
    ρ x = x ∧ values'.lookup x = values.lookup x ∧ ∃ m, r.node? x = some m ∧ n.id = m.id ∧
      n.inputs = m.inputs.map ρ ∧ n.op = m.op := by
  obtain ⟨n₁, hn₁, hid₁, -, hin₁, -⟩ := kc.wiring.symm.node hn
  obtain ⟨hx, m₁, hm₁, hid₂, hname₂, hin₂, hop⟩ := k.origin hc hn₁
  obtain ⟨m, hm, hid₃, -, hin₃, -⟩ := kr.wiring.node hm₁
  have hid : n.id = m.id := hid₁.symm.trans (hid₂.trans hid₃.symm)
  have hin : n.inputs = m.inputs.map ρ := by rw [hin₃, ← hin₁, hin₂]
  refine ⟨hx, ?_⟩
  by_cases hinput : ∃ d, m₁.op = .input d
  · obtain ⟨d, hd⟩ := hinput
    obtain ⟨n', l, xs, hb, hn', hnop, hlook⟩ := kc.bound hn₁ (hop.trans hd)
    obtain ⟨m', l', ys, hb', hm', hmop, hlook'⟩ := kr.bound hm₁ hd
    obtain rfl := Option.some.inj (hn.symm.trans hn')
    obtain rfl := Option.some.inj (hm.symm.trans hm')
    obtain ⟨rfl, rfl⟩ := (hb.congr hid₂.symm hname₂.symm hop.symm).unique hb'
    exact ⟨hlook.trans hlook'.symm, m, hm, hid, hin, hnop.trans hmop.symm⟩
  · have hne : ∀ d, m₁.op ≠ .input d := fun d hd => hinput ⟨d, hd⟩
    have hne₁ : ∀ d, n₁.op ≠ .input d := fun d hd => hne d (hop.symm.trans hd)
    have hfree := kc.lookup_eq_none hn₁ hne₁
    have hfree' := kr.lookup_eq_none hm₁ hne
    refine ⟨hfree.trans hfree'.symm, m, hm, hid, hin, ?_⟩
    rw [kc.same hn₁ hn hne₁, kr.same hm₁ hm hne, hop]

/-- What is known of a node that stays is known without the shortcuts. -/
theorem given?_eq (hn : h.node? x = some n) : h.given? values' x = r.given? values x := by
  obtain ⟨-, hlook, m, hm, -, -, hop⟩ := k.informed_node hc kr kc hn
  rw [given?, given?, hn, hm, Option.bind_some, Option.bind_some, hop, hlook]

end

/-- A node that is bypassed is no input. -/
theorem ne_input (k : Shortcut g f ρ) (hx : ρ x ≠ x) (hn : g.node? x = some n) (d : Layout) :
    n.op ≠ .input d := by
  intro hd
  have hmay := (k.gone hn hx).1
  rw [hd] at hmay
  cases hmay

theorem stays_of_input {d : Layout} (k : Shortcut g f ρ) (hn : g.node? x = some n)
    (hop : n.op = .input d) : ρ x = x := by
  by_contra hx
  exact k.ne_input hx hn d hop

/-- Nothing is known of a node that is bypassed. -/
theorem given?_eq_none (k : Shortcut g f ρ) (kr : g.Informed tensors values r) (hx : ρ x ≠ x) :
    r.given? values x = none := by
  cases hm : r.node? x with
  | none => rw [given?, hm, Option.bind_none]
  | some m =>
    obtain ⟨n, hn, -, -, -, -⟩ := kr.wiring.symm.node hm
    have hop := kr.same hn hm (k.ne_input hx hn)
    have hfree := kr.lookup_eq_none hn (k.ne_input hx hn)
    have hmay := (k.gone hn hx).1
    rw [given?, hm, Option.bind_some, hop]
    split
    · next hd => simp [hd, Pass.mayBeIdentity] at hmay
    · exact hfree

/-- A pattern is known as it was, or it was hidden before the shortcuts. -/
theorem pattern?_cases (k : Shortcut g f ρ) (hc : Compiled f c) (hs : g.Sound)
    (kr : g.Informed tensors values r) (kc : c.Informed tensors values' h)
    (hn : h.node? x = some n) (hm : r.node? x = some m) :
    (∃ a, m.inputs[1]? = some a ∧ ρ a ≠ a ∧ r.pattern? values m = none) ∨
      h.pattern? values' n = r.pattern? values m := by
  obtain ⟨-, -, m', hm', -, hin, -⟩ := k.informed_node hc kr kc hn
  obtain rfl := Option.some.inj (hm.symm.trans hm')
  rw [pattern?, pattern?, hin, List.getElem?_map]
  cases hslot : m.inputs[1]? with
  | none => exact .inr rfl
  | some a =>
    rw [Option.map_some, Option.bind_some, Option.bind_some]
    by_cases ha : ρ a = a
    · have hlive : h.contains a = true := by
        rw [← kc.wiring.contains_eq, k.live_iff hc, kr.wiring.contains_eq]
        exact ⟨ha, (kr.wiring.sound hs).live (Feeds.of_input hm hslot)⟩
      obtain ⟨n', hn'⟩ := Graph.contains_iff.1 hlive
      rw [ha]
      exact .inr (k.given?_eq hc kr kc hn')
    · exact .inl ⟨a, rfl, ha, k.given?_eq_none kr ha⟩

end Shortcut

/-- A graph `g` that tensors resolve to `r`, and the graph `c` that was compiled from it after
shortcuts had been taken. -/
structure Rerouted (g f c r : Graph) (ρ : NodeId → NodeId) (tensors : List (NodeId × Tensor))
    (values : InputValues) : Prop where
  sound : g.Sound
  laid : g.Laid
  shortcut : Shortcut g f ρ
  compiled : Compiled f c
  resolved : g.Resolved tensors values r

/-- No reshape to no dims takes its pattern from a node with values. -/
def EmptyPatterns (c r : Graph) (values : InputValues) : Prop :=
  ∀ {x n copyZeros a xs}, c.node? x = some n → n.op = .reshape (.fromInput 0) copyZeros →
    n.inputs[1]? = some a → r.given? values a = some xs → xs = []

namespace Rerouted

variable (k : Rerouted g f c r ρ tensors values)

include k

/-- A node that is bypassed has the layout of the node that stands in for it. -/
theorem layout_reroute (hx : g.contains x = true) : r.layout (ρ x) = r.layout x := by
  by_cases hρ : ρ x = x
  · rw [hρ]
  obtain ⟨l, hl, hl', hstatic⟩ := k.shortcut.same hρ hx
  have hsettled : ∀ {y}, g.layout y = .ok l → r.layout y = .ok l := by
    intro y hy
    obtain ⟨n, hn, -⟩ := layout_eq_ok.1 hy
    obtain ⟨_, _, ly, _, _, hly, -⟩ := k.resolved.inferred y (by
      rw [← k.resolved.relaid.wiring.contains_eq]
      exact contains_iff.2 ⟨n, hn⟩)
    have hrefines := k.resolved.refines k.sound k.laid (.refl g) (fun x n m hn hm => by
      rw [Option.some.inj (hn.symm.trans hm)]) hy hly
    rw [hly, hrefines.eq_of_isStatic hstatic (k.laid.layout hy).1
      (k.resolved.inferred.layout hly).1]
  rw [hsettled hl, hsettled hl']

theorem origin (hn : c.node? x = some n) : ρ x = x ∧ ∃ m, g.node? x = some m ∧ n.id = m.id ∧
    n.name = m.name ∧ n.inputs = m.inputs.map ρ ∧ n.op = m.op :=
  k.shortcut.origin k.compiled hn

theorem node (kc : c.Informed tensors values' h) (hn : h.node? x = some n) :
    ρ x = x ∧ values'.lookup x = values.lookup x ∧ ∃ m, r.node? x = some m ∧ n.id = m.id ∧
      n.inputs = m.inputs.map ρ ∧ n.op = m.op :=
  k.shortcut.informed_node k.compiled k.resolved.informed kc hn

/-- The values of a source are known. -/
theorem given?_of_declared (hn : g.node? a = some n) (hd : n.op.declared?.isSome = true) :
    ∃ xs, r.given? values a = some xs := by
  obtain ⟨m, hm, -⟩ := k.resolved.relaid.wiring.node hn
  cases hop : n.op with
  | input d =>
    obtain ⟨m', realized, lanes, -, hm', hmop, hlook⟩ := k.resolved.bound hn hop
    exact ⟨lanes, by rw [given?, hm', Option.bind_some]; simp only [hmop, hlook]⟩
  | constant d ys =>
    have hmop := k.resolved.same hn hm (by simp [hop])
    exact ⟨ys, by rw [given?, hm, Option.bind_some]; simp only [hmop, hop]⟩
  | permute | reshape | concatenation | crop | reorder | fullyConnected =>
    rw [hop] at hd
    cases hd

/-- What is known of the source of a pattern. -/
theorem pattern?_eq (kc : c.Informed tensors values' h) (hn : h.node? x = some n)
    (ha : n.inputs[1]? = some a) : h.pattern? values' n = r.given? values a := by
  have hs := kc.wiring.sound k.compiled.sound'
  obtain ⟨n', hn'⟩ := contains_iff.1 (hs.live (Feeds.of_input hn ha))
  rw [pattern?, ha, Option.bind_some, k.shortcut.given?_eq k.compiled k.resolved.informed kc hn']

/-- Patterns have no values where the graph with the shortcuts is resolved. -/
theorem emptyPatterns_of_resolved (kc : c.Resolved tensors values' h) : c.EmptyPatterns r values := by
  intro x n copyZeros a xs hn hop ha hxs
  obtain ⟨m, hm, -, -, hin, -⟩ := kc.relaid.wiring.node hn
  obtain ⟨m', ins, l, hm', -, -, hy, -⟩ := kc.inferred x (contains_iff.2 ⟨m, hm⟩)
  obtain rfl := Option.some.inj (hm.symm.trans hm')
  rw [k.pattern?_eq kc.informed hm (hin ▸ ha), hxs, kc.same hn hm (by simp [hop]), hop] at hy
  obtain - | - | - | ⟨hread, -⟩ := hy
  rw [Infer.readPattern] at hread
  split at hread
  · cases hread
  · next hlength => simpa using hlength

variable (hL : ∀ x, g.contains x = true → r.layout x = .ok (L x))

include hL

/-- Inputs are laid out the same before and after the shortcuts. -/
theorem map_reroute (hm : r.node? x = some m) : (m.inputs.map ρ).map L = m.inputs.map L := by
  rw [List.map_map]
  refine List.map_congr_left fun a ha => ?_
  have hwire := k.resolved.relaid.wiring
  have ha : g.contains a = true := by
    rw [hwire.contains_eq]
    exact (hwire.sound k.sound).live ⟨m, hm, ha⟩
  have := k.layout_reroute ha
  rw [hL a ha, hL _ (k.shortcut.live ha)] at this
  exact Except.ok.inj this

variable (hsingle : ∀ {x m copyZeros a}, r.node? x = some m →
  m.op = .reshape (.fromInput 0) copyZeros → m.inputs[0]? = some a →
    (L a).shape.count = .ok (some 1))

include hsingle

/-- The layouts fit the graph with the shortcuts. -/
theorem fitting (hempty : c.EmptyPatterns r values) (kb : BoundInputs c tensors values' b) :
    b.Fitting values' L := by
  intro x n hn
  obtain ⟨-, -, m, hm, -, hin, hop⟩ := k.node kb.informed hn
  have hwire := k.resolved.relaid.wiring
  obtain ⟨m', ins, l, hm', hins, hl, hy, hv⟩ := k.resolved.inferred x (contains_iff.2 ⟨m, hm⟩)
  obtain rfl := Option.some.inj (hm.symm.trans hm')
  obtain rfl : L x = l := Except.ok.inj ((hL x (by
    rw [hwire.contains_eq]
    exact contains_iff.2 ⟨m, hm⟩)).symm.trans hl)
  have hlays : r.Lays m.inputs (m.inputs.map L) := by
    rw [Lays, List.forall₂_map_right_iff, List.forall₂_same]
    intro a ha
    refine hL a ?_
    rw [hwire.contains_eq]
    exact (hwire.sound k.sound).live ⟨m, hm, ha⟩
  obtain rfl := hins.unique hlays
  rw [hin, k.map_reroute hL hm, hop]
  refine ⟨?_, hv⟩
  rcases k.shortcut.pattern?_cases k.compiled k.sound k.resolved.informed kb.informed hn hm with
    ⟨-, -, -, hnone⟩ | heq
  swap
  · rwa [heq]
  -- a pattern that comes to light only now
  rw [hnone] at hy
  by_cases hreshape : ∃ rank copyZeros, m.op = .reshape (.fromInput rank) copyZeros
  swap
  · exact hy.congr fun rank copyZeros h => hreshape ⟨rank, copyZeros, h⟩
  obtain ⟨rank, copyZeros, hmop⟩ := hreshape
  rw [hmop] at hy ⊢
  cases hpattern : b.pattern? values' n with
  | none => exact hy
  | some xs =>
    obtain ⟨n₁, hn₁, -, -, hin₁, halike⟩ := kb.relaid.wiring.symm.node hn
    cases hinputs : m.inputs with
    | nil =>
      rw [hinputs] at hy
      cases hy
    | cons a₀ rest =>
      rw [hinputs, List.map_cons] at hy
      obtain ⟨rfl, hscalar⟩ := hy.rank_of_unknown (k.resolved.static hl)
      obtain ⟨a, ha⟩ : ∃ a, n.inputs[1]? = some a := by
        cases ha : n.inputs[1]? with
        | none => simp [pattern?, ha] at hpattern
        | some a => exact ⟨a, rfl⟩
      have hop₁ : n₁.op = .reshape (.fromInput 0) copyZeros :=
        (halike.eq_of_ne fun l => by simp [hop, hmop]).trans (hop.trans hmop)
      rw [k.pattern?_eq kb.informed hn ha] at hpattern
      obtain rfl := hempty hn₁ hop₁ (hin₁ ▸ ha) hpattern
      rw [hscalar, List.map_cons]
      exact Infer.yields_scalar (hsingle hm hmop (by rw [hinputs]; rfl))

/-- What the first graph is resolved to, the second one is resolved to as well. -/
theorem resolve_ok (hempty : c.EmptyPatterns r values) : ∃ h values', c.resolve tensors = (h, .ok values') ∧
    c.Resolved tensors values' h ∧ ∀ x, c.contains x = true → h.layout x = .ok (L x) := by
  have hlive : ∀ {x}, c.contains x = true → ρ x = x ∧ g.contains x = true := fun {x} hx => by
    rwa [k.shortcut.live_iff k.compiled] at hx
  have hbound : ∀ {x n d}, c.node? x = some n → n.op = .input d →
      ∃ realized lanes, Bound tensors n realized lanes := by
    intro x n d hn hd
    obtain ⟨-, m, hm, hid, hname, -, hop⟩ := k.origin hn
    obtain ⟨-, l, xs, hb, -⟩ := k.resolved.bound hm (hop.symm.trans hd)
    exact ⟨l, xs, hb.congr hid hname hop⟩
  obtain ⟨h, values', hr, hlayout⟩ := k.compiled.sound'.resolve_ok hbound
    (fun kb => k.fitting hL hsingle hempty kb) (fun hx => k.resolved.static (hL _ (hlive hx).2))
  exact ⟨h, values', hr, k.compiled.sound'.resolved hr, hlayout⟩

end Rerouted

end Graph

end BufferFusion
