import BufferFusion.Proofs.Inference.Reroute

/-!
# Resolving without the shortcuts

Where a graph can be resolved after shortcuts have been taken in it, it could be without them, to the
same layouts. Only the values that a reshape takes its pattern from may be hidden: they are known of
inputs and constants, and not of an identity on top of them.
-/
namespace BufferFusion

namespace Infer

variable {values? : Option (List Float)} {rest : List Layout} {a l : Layout}

/-- To no dims a reshape leads whether or not its pattern is known. -/
theorem Yields.forget_pattern {copyZeros : Bool}
    (h : Yields values? (.reshape (.fromInput 0) copyZeros) (a :: rest) l) :
    Yields none (.reshape (.fromInput 0) copyZeros) (a :: rest) l := by
  cases h with
  | @reshape _ _ _ _ pattern shape read shaped =>
    suffices hshape : shape = ⟨[]⟩ by
      subst hshape
      have hread : readPattern none (.fromInput 0) = .ok none := rfl
      exact .reshape hread rfl
    cases pattern with
    | none => exact (Except.ok.inj shaped).symm
    | some pattern =>
      obtain rfl : pattern = [] := by
        cases values? with
        | none => cases read
        | some xs =>
          rw [readPattern] at read
          split at read
          · cases read
          · next hlength =>
            obtain rfl := List.eq_nil_of_length_eq_zero (not_not.1 hlength)
            exact (Option.some.inj (Except.ok.inj read)).symm
      obtain ⟨_, hdims, hs⟩ := Result.bind_eq_ok.1 shaped
      obtain rfl := Except.ok.inj hdims
      obtain ⟨count, -, hs⟩ := Result.bind_eq_ok.1 hs
      cases count with
      | none => exact (Except.ok.inj hs).symm
      | some n =>
        change (if n = 1 then _ else _) = _ at hs
        split at hs
        · exact (Except.ok.inj hs).symm
        · cases hs

/-- Without its pattern a rule answers the same, but for a reshape to some dims. -/
theorem Yields.hide {op : Operation} {ins : List Layout} (h : Yields values? op ins l)
    (hop : ∀ rank copyZeros, op = .reshape (.fromInput rank) copyZeros → rank = 0) :
    Yields none op ins l := by
  by_cases hreshape : ∃ rank copyZeros, op = .reshape (.fromInput rank) copyZeros
  · obtain ⟨rank, copyZeros, rfl⟩ := hreshape
    obtain rfl := hop rank copyZeros rfl
    cases ins with
    | nil => cases h
    | cons a rest => exact h.forget_pattern
  · exact h.congr fun rank copyZeros heq => hreshape ⟨rank, copyZeros, heq⟩

end Infer

namespace Graph

variable {g f c b h r : Graph} {ρ : NodeId → NodeId} {tensors : List (NodeId × Tensor)}
  {values values' : InputValues} {L : NodeId → Layout} {x : NodeId} {n : Node}

/-- Every reshape to some dims that takes its pattern from an input takes it from a node that is
still there in `c`. -/
def Unhidden (g c : Graph) : Prop :=
  ∀ x n rank copyZeros a, g.node? x = some n → n.op = .reshape (.fromInput rank) copyZeros →
    rank ≠ 0 → n.inputs[1]? = some a → c.contains a = true

/-- Where a graph is resolved, no shortcut can have hidden a pattern. -/
theorem Rerouted.unhidden (k : Rerouted g f c r ρ tensors values) : g.Unhidden c := by
  intro x n rank copyZeros a hn hop hrank ha
  have hwire := k.resolved.relaid.wiring
  obtain ⟨m, hm, -, -, hin, -⟩ := hwire.node hn
  obtain ⟨m', ins, l, hm', hins, hl, hy, -⟩ := k.resolved.inferred x (contains_iff.2 ⟨m, hm⟩)
  obtain rfl := Option.some.inj (hm.symm.trans hm')
  rw [k.resolved.same hn hm (by simp [hop]), hop] at hy
  rw [k.shortcut.live_iff k.compiled]
  refine ⟨?_, k.sound.live (Feeds.of_input hn ha)⟩
  by_contra hx
  rw [pattern?, hin, ha, Option.bind_some,
    k.shortcut.given?_eq_none k.resolved.informed hx] at hy
  cases ins with
  | nil => cases hy
  | cons first rest => exact hrank (hy.rank_of_unknown (k.resolved.static hl)).1

/-- A graph `c` that tensors resolve to `h`, and the graph `g` that it was compiled from with
shortcuts. -/
structure Restored (g f c h : Graph) (ρ : NodeId → NodeId) (tensors : List (NodeId × Tensor))
    (values : InputValues) : Prop where
  sound : g.Sound
  inferred : g.Inferred []
  shortcut : Shortcut g f ρ
  compiled : Compiled f c
  resolved : c.Resolved tensors values h

namespace Restored

variable (k : Restored g f c h ρ tensors values)

include k

theorem live (hx : g.contains x = true) : h.contains (ρ x) = true := by
  rw [← k.resolved.relaid.wiring.contains_eq, k.shortcut.live_iff k.compiled]
  exact ⟨k.shortcut.idem x, k.shortcut.live hx⟩

/-- A bypassed node had the layout of the node that stands in for it, and so had what it reads. -/
theorem bypassed (hn : g.node? x = some n) (hx : ρ x ≠ x) : ∃ a l, n.inputs = [a] ∧ ρ x = ρ a ∧
    Infer.Yields none n.op [l] l ∧ h.layout (ρ x) = .ok l := by
  have hlive := contains_iff.2 ⟨n, hn⟩
  obtain ⟨hmay, a, hin, hρ⟩ := k.shortcut.gone hn hx
  obtain ⟨l, hl, hl', hstatic⟩ := k.shortcut.same hx hlive
  have ha : g.layout a = .ok l := by
    by_cases ha : ρ a = a
    · rwa [← ha, ← hρ]
    · obtain ⟨l₁, h₁, h₂, -⟩ := k.shortcut.same ha (k.sound.live ⟨n, hn, by simp [hin]⟩)
      obtain rfl := Except.ok.inj (h₂.symm.trans (hρ ▸ hl'))
      exact h₁
  obtain ⟨n', ins, l₁, hn', hins, h₁, hy, -⟩ := k.inferred x hlive
  obtain rfl := Option.some.inj (hn.symm.trans hn')
  obtain rfl := Except.ok.inj (hl.symm.trans h₁)
  obtain rfl : ins = [l] := hins.unique (by rw [hin]; exact .cons ha .nil)
  rw [pattern?, hin] at hy
  refine ⟨a, l, hin, hρ, hy, ?_⟩
  obtain ⟨_, _, lh, _, _, hlh, -⟩ := k.resolved.inferred _ (k.live hlive)
  have hlf : f.layout (ρ x) = .ok l := (k.shortcut.layout_eq (k.shortcut.idem x)).trans hl'
  have hrefines := k.compiled.refines k.resolved hlf hlh
  rw [hlh, hrefines.eq_of_isStatic hstatic (k.compiled.laid.layout hlf).1
    (k.resolved.inferred.layout hlh).1]

/-- The layouts of the nodes that stand in for others. -/
theorem exists_layouts : ∃ L : NodeId → Layout,
    ∀ x, g.contains x = true → h.layout (ρ x) = .ok (L x) := by
  obtain ⟨L, hL⟩ := k.resolved.inferred.exists_layouts
  exact ⟨fun x => L (ρ x), fun x hx => hL (ρ x) (k.live hx)⟩

variable (hL : ∀ x, g.contains x = true → h.layout (ρ x) = .ok (L x))

include hL

theorem yields_bypassed (hn : g.node? x = some n) (hx : ρ x ≠ x) :
    n.inputs[1]? = none ∧ Infer.Yields none n.op (n.inputs.map L) (L x) := by
  obtain ⟨a, l, hin, hρ, hy, hl⟩ := k.bypassed hn hx
  have hLx : L x = l := Except.ok.inj ((hL x (contains_iff.2 ⟨n, hn⟩)).symm.trans hl)
  have hLa : L a = l :=
    Except.ok.inj ((hL a (k.sound.live ⟨n, hn, by simp [hin]⟩)).symm.trans (hρ ▸ hl))
  rw [hin, List.map_singleton, hLa, hLx]
  exact ⟨rfl, hy⟩

variable (hopen : g.Unhidden c)

include hopen

/-- With them the graph fits as it was before the shortcuts. -/
theorem fitting (kb : BoundInputs g tensors values' b) : b.Fitting values' L := by
  intro x m hm
  obtain ⟨n, hn, -, -, hin, halike⟩ := kb.relaid.wiring.symm.node hm
  have hlive := contains_iff.2 ⟨n, hn⟩
  refine ⟨?_, (k.resolved.inferred.layout (hL x hlive)).2⟩
  by_cases hx : ρ x = x
  swap
  · obtain ⟨hslot, hy⟩ := k.yields_bypassed hL hn hx
    rw [kb.informed.same hn hm (k.shortcut.ne_input hx hn), pattern?, ← hin, hslot]
    exact hy
  obtain ⟨p, hp⟩ := contains_iff.1 (k.live hlive)
  rw [hx] at hp
  obtain ⟨-, -, m', hm', -, hpin, hpop⟩ :=
    k.shortcut.informed_node k.compiled kb.informed k.resolved.informed hp
  obtain rfl := Option.some.inj (hm.symm.trans hm')
  obtain ⟨p', ins, l, hp', hins, hl, hy, -⟩ := k.resolved.inferred x (contains_iff.2 ⟨p, hp⟩)
  obtain rfl := Option.some.inj (hp.symm.trans hp')
  obtain rfl := Except.ok.inj ((hL x hlive).symm.trans (hx.symm ▸ hl))
  obtain rfl : ins = m.inputs.map L := hins.unique (by
    rw [hpin, Lays, List.forall₂_map_left_iff, List.forall₂_map_right_iff, List.forall₂_same]
    exact fun a ha => hL a (k.sound.live ⟨n, hn, hin ▸ ha⟩))
  rw [hpop] at hy
  rcases k.shortcut.pattern?_cases k.compiled k.sound kb.informed k.resolved.informed hp hm with
    ⟨a, ha, hgone, hnone⟩ | heq
  · -- a pattern that comes to light with the shortcuts only
    rw [hnone]
    refine hy.hide fun rank copyZeros hop => ?_
    by_contra hrank
    have hnop : n.op = .reshape (.fromInput rank) copyZeros :=
      (halike.eq_of_ne fun l => by simp [hop]).trans hop
    have hstays := hopen x n rank copyZeros a hn hnop hrank (hin ▸ ha)
    exact hgone ((k.shortcut.live_iff k.compiled).1 hstays).1
  · rwa [← heq]

/-- The graph is resolved without the shortcuts, each node to the layout of what stands in for it. -/
theorem resolve_ok : ∃ r values', g.resolve tensors = (r, .ok values') ∧
    ∀ x, g.contains x = true → r.layout x = .ok (L x) := by
  refine k.sound.resolve_ok (fun {x n d} hn hop => ?_) (fun kb => k.fitting hL hopen kb) fun {x} hx =>
    k.resolved.static (hL x hx)
  have hx : ρ x = x := k.shortcut.stays_of_input hn hop
  have hlive : c.contains x = true :=
    (k.shortcut.live_iff k.compiled).2 ⟨hx, contains_iff.2 ⟨n, hn⟩⟩
  obtain ⟨m, hm⟩ := contains_iff.1 hlive
  obtain ⟨-, n', hn', hid, hname, -, hmop⟩ := k.shortcut.origin k.compiled hm
  obtain rfl := Option.some.inj (hn.symm.trans hn')
  obtain ⟨-, l, xs, hb, -⟩ := k.resolved.bound hm (hmop.trans hop)
  exact ⟨l, xs, hb.congr hid.symm hname.symm hmop.symm⟩

end Restored

/-- Tensors on which a graph is resolved after shortcuts resolve it without them, unless one hides a
pattern, and then they do not. A node has the layout of the one that stands in for it. -/
theorem Restored.resolves_iff (k : Restored g f c h ρ tensors values) :
    ((∃ r values', g.resolve tensors = (r, .ok values')) ↔ g.Unhidden c) ∧
      ∀ r values', g.resolve tensors = (r, .ok values') →
        ∀ x, g.contains x = true → r.layout x = h.layout (ρ x) := by
  have hhidden : ∀ {r values'}, g.resolve tensors = (r, .ok values') → g.Unhidden c := fun hr =>
    Rerouted.unhidden ⟨k.sound, k.inferred.laid, k.shortcut, k.compiled, k.sound.resolved hr⟩
  obtain ⟨L, hL⟩ := k.exists_layouts
  refine ⟨⟨fun ⟨r, values', hr⟩ => hhidden hr, fun hopen => ?_⟩, fun r values' hr x hx => ?_⟩
  · obtain ⟨r, values', hr, -⟩ := k.resolve_ok hL hopen
    exact ⟨r, values', hr⟩
  · obtain ⟨r', values₁, hr', hlayout⟩ := k.resolve_ok hL (hhidden hr)
    obtain ⟨rfl, -⟩ := Prod.mk.inj (hr.symm.trans hr')
    rw [hlayout x hx, hL x hx]

end Graph
end BufferFusion
