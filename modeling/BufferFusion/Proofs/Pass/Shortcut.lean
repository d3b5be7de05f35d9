import BufferFusion.Proofs.Graph.Listed
import BufferFusion.Proofs.Inference.Identity

/-!
# Shortcuts

What removing identities leaves of a graph. Whoever read a removed node reads the node in front of
it, which has the same layout; everything else about the nodes that stay is as it was, and so are
the outputs. So the next node is still what it was before, and the removal, which succeeds on every
sound graph, takes out the identities that the graph had to begin with.
-/
namespace BufferFusion

open Relation

/-- The node with each input taken from where `ρ` says. -/
def Node.reroute (ρ : NodeId → NodeId) (n : Node) : Node := { n with inputs := n.inputs.map ρ }

namespace Graph

variable {g g' f : Graph} {old new x : NodeId} {n : Node} {ρ : NodeId → NodeId} {ids : List NodeId}

/-! ### Outputs -/

theorem Sound.mem_outputs (hs : g.Sound) : x ∈ g.outputs ↔
    x ∈ g.marked ∨ g.marked = [] ∧ g.contains x = true ∧ ∀ b, ¬ g.Feeds x b := by
  rw [outputs]
  cases hm : g.marked with
  | nil =>
    simp only [List.isEmpty_nil, if_true, List.mem_filter, hs.mem_order, List.isEmpty_iff,
      List.eq_nil_iff_forall_not_mem, hs.mem_outgoing_iff, List.not_mem_nil, false_or, true_and]
  | cons y ys => simp

theorem Sound.outputs_nodup (hs : g.Sound) (hm : g.marked.Nodup) : g.outputs.Nodup := by
  rw [outputs]
  split
  · exact hs.order_nodup.filter _
  · exact hm

theorem Sound.live_of_mem_outputs (hs : g.Sound) (hx : x ∈ g.outputs) : g.contains x = true := by
  rcases hs.mem_outputs.1 hx with hx | ⟨-, hx, -⟩
  · exact hs.marked hx
  · exact hx

theorem Built.marked_nodup (h : g.Built) : g.marked.Nodup := h.reachable.listed.marked_nodup

/-! ### One identity -/

namespace Bypass

variable (k : g.Bypass old new n)

include k

/-- An identity reads one node only. -/
theorem inputs_eq (hs : g.Sound) : n.inputs = [new] := by
  have htakes := hs.takes k.node
  have hop := k.op
  have hnew := (input_eq_ok k.node).1 k.reads
  have hlen : n.inputs.length = 1 := by
    cases hn : n.op with
    | input | constant | concatenation | crop | fullyConnected =>
      rw [hn] at hop
      cases hop
    | permute | reorder =>
      rw [hn] at htakes
      simpa [Operation.takes] using htakes
    | reshape target copyZeros =>
      cases target with
      | pattern =>
        rw [hn] at htakes
        simpa [Operation.takes] using htakes
      | fromInput =>
        rw [hn] at hop
        cases hop
  obtain ⟨a, ha⟩ := List.length_eq_one_iff.1 hlen
  rw [ha] at hnew ⊢
  rw [Option.some.inj hnew]

theorem feeds (hs : g.Sound) : g.Feeds new old :=
  ⟨n, k.node, by rw [k.inputs_eq hs]; exact List.mem_singleton_self _⟩

/-- An identity can be taken out. -/
theorem replace_ok (hs : g.Sound) : ∃ g', g.replace old new true = .ok g' := by
  have hf := k.feeds hs
  have hold : g.contains old = true := hf.contains_right
  obtain ⟨m, hm⟩ := contains_iff.1 (hs.live hf)
  have hne : old ≠ new := fun he => hs.not_feeds_self (he ▸ hf)
  have hpath : g.reaches old new = false := by
    rw [← Bool.not_eq_true, hs.reaches_iff hold]
    intro hr
    obtain ⟨rank, hrank⟩ := hs.ranked
    have hle : ∀ {c}, ReflTransGen g.Feeds old c → rank old ≤ rank c := by
      intro c hc
      induction hc with
      | refl => exact Nat.le_refl _
      | tail _ hstep ih => exact Nat.le_trans ih (Nat.le_of_lt (hrank hstep))
    exact Nat.lt_irrefl _ (Nat.lt_of_lt_of_le (hrank hf) (hle hr))
  have hn : g.get old = .ok n := get_eq_ok.2 k.node
  have hm : g.get new = .ok m := get_eq_ok.2 hm
  have hcheck : g.checkReplace old new true = .ok () := by
    simp [checkReplace, hn, hm, hne, hs.hasPath_eq hold, hpath, bind, Except.bind, pure,
      Except.pure]
  exact ⟨_, Result.bind_eq_ok.2 ⟨(), hcheck, rfl⟩⟩

end Bypass

/-- Taking out an identity changes no output. -/
theorem Replaced.mem_outputs_iff (hr : g.Replaced old new g') (hs : g.Sound)
    (k : g.Bypass old new n) : x ∈ g'.outputs ↔ x ∈ g.outputs := by
  have hf := k.feeds hs
  have hinner : old ∉ g.outputs := by
    rw [← isOutput_iff, k.inner]
    exact Bool.false_ne_true
  rw [hs.mem_outputs, not_or] at hinner
  rw [(hr.sound hs).mem_outputs, hs.mem_outputs, hr.marked, List.mem_eraseDups]
  have hmem : x ∈ g.marked.map (substitute old new) ↔ x ∈ g.marked := by
    rw [List.mem_map]
    constructor
    · rintro ⟨p, hp, rfl⟩
      rwa [substitute_of_ne fun he : p = old => hinner.1 (he ▸ hp)]
    · exact fun hx => ⟨x, hx, substitute_of_ne fun he : x = old => hinner.1 (he ▸ hx)⟩
  have hnil : (g.marked.map (substitute old new)).eraseDups = [] ↔ g.marked = [] := by
    simp only [List.eq_nil_iff_forall_not_mem, List.mem_eraseDups, List.mem_map]
    constructor
    · exact fun h y hy => h _ ⟨y, hy, rfl⟩
    · rintro h y ⟨p, hp, -⟩
      exact h p hp
  rw [hmem, hnil]
  refine or_congr_right (and_congr_right fun hm => ?_)
  -- a node without consumers is neither of the two
  obtain ⟨c, hc⟩ : ∃ c, g.Feeds old c := by
    have := hinner.2
    simp only [hm, true_and, not_and, not_forall, not_not] at this
    exact this hf.contains_right
  rw [hr.contains_iff]
  constructor
  · rintro ⟨⟨hne, hlive⟩, hsink⟩
    refine ⟨hlive, fun b hb => hsink b (hr.feeds_iff.2 ⟨?_, x, hb, (substitute_of_ne hne).symm⟩)⟩
    rintro rfl
    obtain ⟨m, hm, hmem⟩ := hb
    obtain rfl := Option.some.inj (k.node.symm.trans hm)
    rw [k.inputs_eq hs, List.mem_singleton] at hmem
    subst hmem
    refine hsink c (hr.feeds_iff.2 ⟨?_, b, hc, by rw [substitute_self]⟩)
    rintro rfl
    exact hs.not_feeds_self hc
  · rintro ⟨hlive, hsink⟩
    refine ⟨⟨fun he => hsink c (he ▸ hc), hlive⟩, fun b hb => ?_⟩
    obtain ⟨-, p, hp, rfl⟩ := hr.feeds_iff.1 hb
    by_cases hpo : p = old
    · subst hpo
      rw [substitute_self] at hsink
      exact hsink p hf
    · rw [substitute_of_ne hpo] at hsink
      exact hsink b hp

/-! ### A number of identities -/

/-- `f` is `g` without some identities; `ρ` leads from each of them to what is read in its place. -/
structure Shortcut (g f : Graph) (ρ : NodeId → NodeId) : Prop where
  sound : f.Sound
  node? : ∀ x, f.node? x = if ρ x = x then (g.node? x).map (·.reroute ρ) else none
  idem : ∀ x, ρ (ρ x) = ρ x
  live : ∀ {x}, g.contains x = true → g.contains (ρ x) = true
  gone : ∀ {x n}, g.node? x = some n → ρ x ≠ x →
    Pass.mayBeIdentity n.op = true ∧ ∃ a, n.inputs = [a] ∧ ρ x = ρ a
  same : ∀ {x}, ρ x ≠ x → g.contains x = true →
    ∃ l, g.layout x = .ok l ∧ g.layout (ρ x) = .ok l ∧ l.isStatic = true
  marked : f.marked.Nodup
  outputs : ∀ x, x ∈ f.outputs ↔ x ∈ g.outputs
  named : ∀ {name x}, g.names.lookup name = some x → ρ x = x → f.names.lookup name = some x

theorem Sound.shortcut (hs : g.Sound) (hm : g.marked.Nodup) : Shortcut g g id where
  sound := hs
  node? := by
    intro x
    have hid : (Node.reroute id : Node → Node) = id := by
      funext n
      simp [Node.reroute]
    have hsame : id x = x := rfl
    rw [if_pos hsame, hid, Option.map_id]
    rfl
  idem := fun _ => rfl
  live := fun hx => hx
  gone := fun _ hx => absurd rfl hx
  same := fun hx => absurd rfl hx
  marked := hm
  outputs := fun _ => Iff.rfl
  named := fun h _ => h

namespace Shortcut

variable (k : Shortcut g f ρ)

include k

theorem contains_iff : f.contains x = true ↔ ρ x = x ∧ g.contains x = true := by
  rw [contains, k.node?]
  split <;> simp_all [contains]

theorem layout_eq (hx : ρ x = x) : f.layout x = g.layout x := by
  simp only [Graph.layout, get, k.node?, if_pos hx]
  cases g.node? x <;> rfl

/-- The node that stands in the same place. -/
theorem node {n : Node} (hn : f.node? x = some n) :
    ρ x = x ∧ ∃ m, g.node? x = some m ∧ n = m.reroute ρ := by
  rw [k.node?] at hn
  split at hn
  · next hx =>
    obtain ⟨m, hm, rfl⟩ := Option.map_eq_some_iff.1 hn
    exact ⟨hx, m, hm, rfl⟩
  · cases hn

end Shortcut

/-- With one more node substituted, that node moves and no other stops moving. -/
theorem substitute_comp_eq_iff (hold : ρ old = old) (hnew : ρ new = new) (hne : old ≠ new) :
    (substitute old new ∘ ρ) x = x ↔ ρ x = x ∧ x ≠ old := by
  rw [Function.comp_apply]
  by_cases hx : ρ x = old
  · rw [hx, substitute_self]
    constructor
    · rintro rfl
      exact absurd (hx.symm.trans hnew) hne
    · rintro ⟨h, hxo⟩
      exact absurd h.symm hxo
  · rw [substitute_of_ne hx]
    exact ⟨fun h => ⟨h, fun he => hx (he ▸ hold)⟩, And.left⟩

/-- One more identity. -/
theorem Shortcut.bypass (k : Shortcut g f ρ) (b : f.Bypass old new n)
    (hr : f.Replaced old new g') : Shortcut g g' (substitute old new ∘ ρ) := by
  obtain ⟨hold, m, hm, hreroute⟩ := k.node b.node
  obtain ⟨hnew, hnewlive⟩ := k.contains_iff.1 hr.new_live
  have hlater : ∀ {y}, y ≠ old → ((substitute old new ∘ ρ) y = y ↔ ρ y = y) := fun hy => by
    rw [substitute_comp_eq_iff hold hnew hr.ne, and_iff_left hy]
  have hgone : (substitute old new ∘ ρ) old = new := by
    rw [Function.comp_apply, hold, substitute_self]
  exact {
    sound := hr.sound k.sound
    node? := by
      intro x
      rw [hr.node?]
      by_cases hx : x = old
      · subst hx
        rw [if_pos rfl, if_neg (by rw [hgone]; exact hr.ne.symm)]
      · rw [if_neg hx, k.node?]
        simp only [hlater hx]
        split
        · rw [Option.map_map]
          refine congrArg (Option.map · _) (funext fun n => ?_)
          simp [Node.redirect, Node.reroute, Function.comp_def]
        · rfl
    idem := by
      intro x
      simp only [Function.comp_apply]
      by_cases hρ : ρ x = old
      · rw [hρ, substitute_self, hnew, substitute_of_ne hr.ne.symm]
      · rw [substitute_of_ne hρ, k.idem, substitute_of_ne hρ]
    live := by
      intro x hx
      simp only [Function.comp_apply, substitute]
      split
      · exact hnewlive
      · exact k.live hx
    gone := by
      intro x q hq hx
      by_cases hxo : x = old
      · subst hxo
        obtain rfl := Option.some.inj (hm.symm.trans hq)
        have hop := b.op
        have hin := b.inputs_eq k.sound
        rw [hreroute] at hop hin
        refine ⟨hop, ?_⟩
        simp only [Node.reroute, List.map_eq_singleton_iff] at hin
        obtain ⟨a, ha, hρa⟩ := hin
        refine ⟨a, ha, ?_⟩
        rw [hgone, Function.comp_apply, hρa, substitute_of_ne hr.ne.symm]
      · obtain ⟨hop, a, ha, hρ⟩ := k.gone hq (fun h => hx ((hlater hxo).2 h))
        exact ⟨hop, a, ha, by simp only [Function.comp_apply, hρ]⟩
    same := by
      intro x hx hlive
      obtain ⟨l, hl, hl', hstatic⟩ := b.layout
      rw [k.layout_eq hold] at hl
      rw [k.layout_eq hnew] at hl'
      by_cases hxo : x = old
      · subst hxo
        exact ⟨l, hl, by rwa [hgone], hstatic⟩
      · obtain ⟨lx, hlx, hlx', hs⟩ := k.same (fun h => hx ((hlater hxo).2 h)) hlive
        refine ⟨lx, hlx, ?_, hs⟩
        simp only [Function.comp_apply]
        by_cases hρ : ρ x = old
        · rw [hρ, substitute_self, hl', ← hl, ← hρ, hlx']
        · rw [substitute_of_ne hρ, hlx']
    marked := hr.marked ▸ eraseDups_nodup _
    outputs := fun x => (hr.mem_outputs_iff k.sound b).trans (k.outputs x)
    named := by
      intro name x hname hx
      have hxo : x ≠ old := by
        rintro rfl
        exact hr.ne (hx.symm.trans hgone)
      rw [hr.names]
      exact lookup_filter_of_ne (k.named hname ((hlater hxo).1 hx)) hxo }

/-! ### All identities -/

/-- Whether a node is there and an identity. -/
def identityAt (g : Graph) (x : NodeId) : Bool := (g.node? x).any (Pass.isIdentity g)

/-- What was found out about a node holds as well once others are bypassed. -/
theorem Shortcut.isIdentity_eq (k : Shortcut g f ρ) (hs : g.Sound) (hx : ρ x = x)
    (hn : g.node? x = some n) : Pass.isIdentity f (n.reroute ρ) = Pass.isIdentity g n := by
  obtain rfl := hs.id_eq hn
  have hn' : f.node? n.id = some (n.reroute ρ) := by rw [k.node?, if_pos hx, hn, Option.map_some]
  have houtput : f.isOutput n.id = g.isOutput n.id := by
    rw [Bool.eq_iff_iff, isOutput_iff, isOutput_iff, k.outputs]
  -- the input may be another node, but then it has the layout of the one before
  have hread : ∀ l, (∃ a, f.input n.id 0 = .ok a ∧ f.layout a = .ok l) ↔
      ∃ a, g.input n.id 0 = .ok a ∧ g.layout a = .ok l := by
    intro l
    simp only [input_eq_ok hn', input_eq_ok hn, Node.reroute, List.getElem?_map,
      Option.map_eq_some_iff]
    have hlayout : ∀ {a}, n.inputs[0]? = some a → f.layout (ρ a) = g.layout a := by
      intro a ha
      rw [k.layout_eq (k.idem a)]
      by_cases hρ : ρ a = a
      · rw [hρ]
      · obtain ⟨l, hl, hl', -⟩ := k.same hρ (hs.live (.of_input hn ha))
        rw [hl, hl']
    constructor
    · rintro ⟨_, ⟨a, ha, rfl⟩, hl⟩
      exact ⟨a, ha, (hlayout ha).symm.trans hl⟩
    · rintro ⟨a, ha, hl⟩
      exact ⟨ρ a, ⟨a, ha, rfl⟩, (hlayout ha).trans hl⟩
  rw [Bool.eq_iff_iff, isIdentity_iff, isIdentity_iff]
  refine and_congr_right fun _ => and_congr (by rw [← houtput]; rfl) ?_
  exact exists_congr fun l => and_congr_right fun _ => and_congr_right fun _ => hread l

/-- The pass over some nodes that are still there takes out those that were identities to begin
with, and finds no others. -/
theorem Shortcut.removeAlong (k : Shortcut g f ρ) (hs : g.Sound)
    (hids : ∀ x ∈ ids, ρ x = x ∧ g.contains x = true) (hnodup : ids.Nodup) :
    ∃ f' ρ', Pass.removeAlong ids f = (f', .ok (ids.any g.identityAt)) ∧ Shortcut g f' ρ' ∧
      ∀ y, ρ' y = y ↔ ρ y = y ∧ (y ∈ ids → g.identityAt y = false) := by
  induction ids generalizing f ρ with
  | nil => exact ⟨f, ρ, rfl, k, by simp⟩
  | cons x ids ih =>
    rw [List.forall_mem_cons] at hids
    obtain ⟨⟨hx, hlive⟩, hids⟩ := hids
    obtain ⟨hnew, hnodup⟩ := List.nodup_cons.1 hnodup
    obtain ⟨n, hn⟩ := Graph.contains_iff.1 hlive
    have hn' : f.node? x = some (n.reroute ρ) := by rw [k.node?, if_pos hx, hn, Option.map_some]
    have hat : g.identityAt x = Pass.isIdentity f (n.reroute ρ) := by
      rw [identityAt, hn, k.isIdentity_eq hs hx hn, Option.any_some]
    simp only [Pass.removeAlong, get_eq_ok.2 hn', List.any_cons, hat]
    cases hid : Pass.isIdentity f (n.reroute ρ) with
    | false =>
      obtain ⟨f', ρ', hrun, k', hmoved⟩ := ih k hids hnodup
      refine ⟨f', ρ', by simpa using hrun, k', fun y => ?_⟩
      rw [hmoved, List.mem_cons, or_imp]
      refine and_congr_right fun _ => (and_iff_right ?_).symm
      rintro rfl
      rw [hat, hid]
    | true =>
      obtain ⟨-, -, -, -, -, new, hin, -⟩ := isIdentity_iff.1 hid
      rw [k.sound.id_eq hn'] at hin
      have b := bypass_of_isIdentity k.sound hn' hid hin
      obtain ⟨f₁, hrep⟩ := b.replace_ok k.sound
      have hr := k.sound.replaced hrep
      have hstays : ∀ {y}, (substitute x new ∘ ρ) y = y ↔ ρ y = y ∧ y ≠ x :=
        substitute_comp_eq_iff hx (k.contains_iff.1 hr.new_live).1 hr.ne
      obtain ⟨f', ρ', hrun, k', hmoved⟩ := ih (k.bypass b hr) (fun y hy =>
        ⟨hstays.2 ⟨(hids y hy).1, fun he => hnew (he ▸ hy)⟩, (hids y hy).2⟩) hnodup
      refine ⟨f', ρ', ?_, k', fun y => ?_⟩
      · simp only [hin, bind, Except.bind, hrep, hrun, Bool.true_or]
        rfl
      · rw [hmoved, hstays, List.mem_cons, or_imp, and_assoc]
        refine and_congr_right fun _ => and_congr_left fun _ => ?_
        constructor
        · exact fun hne he => absurd he hne
        · rintro h rfl
          rw [h rfl] at hat
          exact Bool.false_ne_true (hat.trans hid)

/-- The pass takes out the identities of a graph, and it gets through all nodes. -/
theorem Sound.removeAlong_order (hs : g.Sound) (hm : g.marked.Nodup) : ∃ f ρ,
    Pass.removeAlong g.order g = (f, .ok (g.order.any g.identityAt)) ∧ Shortcut g f ρ ∧
      ∀ x, g.contains x = true → (ρ x = x ↔ g.identityAt x = false) := by
  obtain ⟨f, ρ, hrun, k, hmoved⟩ := (hs.shortcut hm).removeAlong hs
    (fun x hx => ⟨rfl, hs.ordered.live x hx⟩) hs.order_nodup
  refine ⟨f, ρ, hrun, k, fun x hx => ?_⟩
  rw [hmoved, forall_prop_of_true (hs.mem_order.2 hx)]
  exact and_iff_right rfl

end Graph
end BufferFusion
