import BufferFusion.Proofs.Graph.Reach

/-!
# Replacing nodes

A replacement leaves the nodes it was asked to leave: every input that was the old node is the new
one, and nothing else about a node changes. The graph stays sound. To rank it, everything that
the old node reaches is lifted over the new one, which is not among it.
-/
namespace BufferFusion

open Relation

/-- The node with its inputs redirected. -/
def Node.redirect (old new : NodeId) (n : Node) : Node :=
  { n with inputs := n.inputs.map (Graph.substitute old new) }

namespace Graph

variable {g g' : Graph} {old new id : NodeId}

@[simp] theorem substitute_self (old new : NodeId) : substitute old new old = new := by
  simp [substitute]

theorem substitute_of_ne {old new x : NodeId} (h : x ≠ old) : substitute old new x = x := by
  simp [substitute, h]

theorem substitute_ne (hne : old ≠ new) (x : NodeId) : substitute old new x ≠ old := by
  rw [substitute]
  split
  · exact Ne.symm hne
  · assumption

theorem slots_adjust (g : Graph) (id x : NodeId) (f : Node → Node) :
    (g.adjust id f).slots[x]? = if id = x then g.slots[x]?.map (Option.map f) else g.slots[x]? := by
  simp only [adjust, List.getElem?_modify]
  cases g.slots[x]? <;> by_cases h : id = x <;> simp [h]

theorem redirect_of_not_mem {n : Node} (h : old ∉ n.inputs) : n.redirect old new = n := by
  have : n.inputs.map (substitute old new) = n.inputs := by
    conv_rhs => rw [← List.map_id n.inputs]
    exact List.map_congr_left fun p hp => substitute_of_ne fun he => h (he ▸ hp)
  rw [Node.redirect, this]

theorem mem_rewiredEdges {consumer : NodeId} {e : DataEdge} :
    e ∈ g.rewiredEdges old new consumer ↔ e.producer = new ∧ e.consumer = consumer ∧
      ∃ n, g.node? consumer = some n ∧ n.inputs[e.slot]? = some old := by
  obtain ⟨p, c, s⟩ := e
  simp only [rewiredEdges]
  cases hn : g.node? consumer with
  | none => simp
  | some n =>
    simp only [List.mem_map, List.mem_filter, List.mem_mapIdx, beq_iff_eq, Option.some.injEq,
      exists_eq_left', DataEdge.mk.injEq]
    constructor
    · rintro ⟨_, ⟨⟨i, hi, rfl⟩, hold⟩, rfl, rfl, rfl⟩
      exact ⟨rfl, rfl, by rw [List.getElem?_eq_getElem hi]; exact congrArg some hold⟩
    · rintro ⟨rfl, rfl, hs⟩
      obtain ⟨hi, hs⟩ := List.getElem?_eq_some_iff.1 hs
      exact ⟨⟨old, c, s⟩, ⟨⟨s, hi, by rw [hs]⟩, rfl⟩, rfl, rfl, rfl⟩

theorem node?_rewireConsumer (g : Graph) (old new c x : NodeId) :
    (g.rewireConsumer old new c).node? x =
      if c = x then (g.node? x).map (·.redirect old new) else g.node? x :=
  node?_adjust g c x _

theorem node?_rewired (hne : old ≠ new) (cs : List NodeId) (x : NodeId) :
    (cs.foldl (fun h c => h.rewireConsumer old new c) g).node? x =
      if x ∈ cs then (g.node? x).map (·.redirect old new) else g.node? x := by
  induction cs generalizing g with
  | nil => simp
  | cons c cs ih =>
    rw [List.foldl_cons, ih, node?_rewireConsumer]
    by_cases hc : c = x
    · subst hc
      rw [if_pos rfl, if_pos List.mem_cons_self]
      split
      · -- a node that is redirected has no input left to redirect
        cases g.node? c with
        | none => rfl
        | some n =>
          refine congrArg some (redirect_of_not_mem ?_)
          intro hold
          obtain ⟨p, -, hp⟩ := List.mem_map.1 hold
          exact substitute_ne hne p hp
      · rfl
    · simp [hc, Ne.symm hc]

theorem edges_rewired (hne : old ≠ new) (cs : List NodeId) (e : DataEdge) :
    e ∈ (cs.foldl (fun h c => h.rewireConsumer old new c) g).edges ↔
      e ∈ g.edges ∨ e.producer = new ∧ e.consumer ∈ cs ∧
        ∃ n, g.node? e.consumer = some n ∧ n.inputs[e.slot]? = some old := by
  induction cs generalizing g with
  | nil => simp
  | cons c cs ih =>
    rw [List.foldl_cons, ih, node?_rewireConsumer]
    simp only [rewireConsumer, List.mem_append, List.mem_reverse, mem_rewiredEdges, List.mem_cons]
    by_cases hc : c = e.consumer
    · subst hc
      have : ¬ ∃ n, (g.node? e.consumer).map (·.redirect old new) = some n ∧
          n.inputs[e.slot]? = some old := by
        rintro ⟨n, hn, hs⟩
        obtain ⟨m, -, rfl⟩ := Option.map_eq_some_iff.1 hn
        rw [Node.redirect, List.getElem?_map, Option.map_eq_some_iff] at hs
        obtain ⟨p, -, hp⟩ := hs
        exact substitute_ne hne p hp
      simp only [if_true, this, and_false, or_false, true_and, true_or]
      exact or_comm
    · simp [hc, Ne.symm hc]

theorem slots_rewired (cs : List NodeId) (x : NodeId) :
    (cs.foldl (fun h c => h.rewireConsumer old new c) g).slots[x]? = some none ↔
      g.slots[x]? = some none := by
  induction cs generalizing g with
  | nil => rfl
  | cons c cs ih =>
    rw [List.foldl_cons, ih]
    refine Eq.to_iff (congrArg (· = some none) (slots_adjust g c x _)) |>.trans ?_
    split <;> cases g.slots[x]? <;> simp

theorem rest_rewired (cs : List NodeId) :
    let h := cs.foldl (fun h c => h.rewireConsumer old new c) g
    h.vacant = g.vacant ∧ h.names = g.names ∧ h.marked = g.marked ∧ h.sharing = g.sharing ∧
      h.slots.length = g.slots.length := by
  induction cs generalizing g with
  | nil => exact ⟨rfl, rfl, rfl, rfl, rfl⟩
  | cons c cs ih =>
    obtain ⟨h₁, h₂, h₃, h₄, h₅⟩ := ih (g := g.rewireConsumer old new c)
    exact ⟨h₁, h₂, h₃, h₄, h₅.trans (by simp [rewireConsumer, adjust])⟩

/-- The entry of a name that stays is found behind those that go. -/
theorem lookup_filter_of_ne {names : List (String × NodeId)} {name : String}
    (h : names.lookup name = some id) (hne : id ≠ old) :
    (names.filter (·.2 != old)).lookup name = some id := by
  induction names with
  | nil => cases h
  | cons e es ih =>
    obtain ⟨name', x⟩ := e
    rw [List.lookup_cons] at h
    rw [List.filter_cons]
    by_cases he : name == name'
    · rw [he] at h
      obtain rfl := Option.some.inj h
      simp [hne, List.lookup_cons, he]
    · rw [Bool.not_eq_true] at he
      rw [he] at h
      split
      · rw [List.lookup_cons, he]
        exact ih h
      · exact ih h

/-- What a replacement leaves of a graph. -/
structure Replaced (g : Graph) (old new : NodeId) (g' : Graph) : Prop where
  old_live : g.contains old = true
  new_live : g.contains new = true
  ne : old ≠ new
  unreached : g.reaches old new = false
  node? : ∀ x, g'.node? x = if x = old then none else (g.node? x).map (·.redirect old new)
  edges : ∀ e, e ∈ g'.edges ↔ e.producer ≠ old ∧ e.consumer ≠ old ∧
    (e ∈ g.edges ∨ e.producer = new ∧ ∃ n, g.node? e.consumer = some n ∧
      n.inputs[e.slot]? = some old)
  marked : g'.marked = (g.marked.map (substitute old new)).eraseDups
  names : g'.names = g.names.filter (·.2 != old)
  sharing : g'.sharing = g.sharing.removeNode old
  vacant : g'.vacant = old :: g.vacant
  slots : ∀ x, g'.slots[x]? = some none ↔ x = old ∨ g.slots[x]? = some none

theorem Sound.replaced (h : g.Sound) {rewire : Bool} (hr : g.replace old new rewire = .ok g') :
    g.Replaced old new g' := by
  obtain ⟨_, hcheck, hok⟩ := Result.bind_eq_ok.1 hr
  obtain rfl := Except.ok.inj hok
  obtain ⟨n, hn, hcheck⟩ := Result.bind_eq_ok.1 hcheck
  obtain ⟨m, hm, hcheck⟩ := Result.bind_eq_ok.1 hcheck
  have hold := contains_iff.2 ⟨n, get_eq_ok.1 hn⟩
  have hnew := contains_iff.2 ⟨m, get_eq_ok.1 hm⟩
  split at hcheck
  · cases hcheck
  next hne =>
  obtain ⟨path, hpath, hcheck⟩ := Result.bind_eq_ok.1 hcheck
  rw [h.hasPath_eq hold] at hpath
  obtain rfl := Except.ok.inj hpath
  split at hcheck
  · cases hcheck
  next hpath =>
  have hrest := @rest_rewired g old new (g.consumers old)
  obtain ⟨h₁, h₂, h₃, h₄, h₅⟩ := hrest
  have hlt : old < g.slots.length := h.lt_of_contains hold
  have hcons : ∀ x, x ∈ g.consumers old ↔ g.Feeds old x := fun x => h.mem_consumers_iff
  refine ⟨hold, hnew, hne, by simpa using hpath, ?_, ?_, ?_, ?_, ?_, ?_, ?_⟩
  · intro x
    have hset : ((((g.consumers old).foldl (fun h c => h.rewireConsumer old new c) g).replaceOutputs
        old new).remove old).node? x = if x = old then none else
        ((g.consumers old).foldl (fun h c => h.rewireConsumer old new c) g).node? x := by
      simp only [remove, replaceOutputs, Graph.node?, List.getElem?_set]
      by_cases hx : x = old
      · subst hx; simp [h₅, hlt]
      · rw [if_neg (Ne.symm hx), if_neg hx]
    rw [hset]
    split
    · rfl
    · rw [node?_rewired hne]
      split
      · rfl
      · next hx =>
        cases hnode : g.node? x with
        | none => rfl
        | some n =>
          refine congrArg some (redirect_of_not_mem ?_).symm
          exact fun hmem => hx ((hcons x).2 ⟨n, hnode, hmem⟩)
  · intro e
    simp only [remove, replaceOutputs, List.mem_filter, Bool.and_eq_true, bne_iff_ne, ne_eq,
      edges_rewired hne, hcons]
    constructor
    · rintro ⟨he | ⟨hp, -, he⟩, h₁, h₂⟩
      · exact ⟨h₁, h₂, .inl he⟩
      · exact ⟨h₁, h₂, .inr ⟨hp, he⟩⟩
    · rintro ⟨h₁, h₂, he | ⟨hp, n, hn, hs⟩⟩
      · exact ⟨.inl he, h₁, h₂⟩
      · exact ⟨.inr ⟨hp, .of_input hn hs, n, hn, hs⟩, h₁, h₂⟩
  · simp [remove, replaceOutputs, h₃]
  · simp [remove, replaceOutputs, h₂]
  · simp [remove, replaceOutputs, h₄]
  · simp [remove, replaceOutputs, h₁]
  · intro x
    simp only [remove, replaceOutputs, List.getElem?_set]
    by_cases hx : x = old
    · subst hx; simp [h₅, hlt]
    · rw [if_neg (Ne.symm hx), slots_rewired]
      simp [hx]

namespace Replaced

theorem node_iff (h : g.Replaced old new g') {x : NodeId} {n : Node} : g'.node? x = some n ↔
    x ≠ old ∧ ∃ m, g.node? x = some m ∧ m.redirect old new = n := by
  rw [h.node?]
  by_cases hx : x = old <;> simp [hx]

theorem node_redirect (h : g.Replaced old new g') {x : NodeId} {n : Node} (hx : x ≠ old)
    (hn : g.node? x = some n) : g'.node? x = some (n.redirect old new) :=
  h.node_iff.2 ⟨hx, n, hn, rfl⟩

theorem contains_iff (h : g.Replaced old new g') {x : NodeId} :
    g'.contains x = true ↔ x ≠ old ∧ g.contains x = true := by
  rw [contains, h.node?]
  by_cases hx : x = old <;> simp [hx, contains]

/-- A node that was there is there under the id that replaces its own. -/
theorem contains_substitute (h : g.Replaced old new g') {x : NodeId} (hx : g.contains x = true) :
    g'.contains (substitute old new x) = true := by
  refine h.contains_iff.2 ⟨substitute_ne h.ne x, ?_⟩
  by_cases he : x = old
  · subst he
    simpa using h.new_live
  · rwa [substitute_of_ne he]

theorem feeds_iff (h : g.Replaced old new g') {a b : NodeId} : g'.Feeds a b ↔
    b ≠ old ∧ ∃ p, g.Feeds p b ∧ a = substitute old new p := by
  constructor
  · rintro ⟨n, hn, ha⟩
    obtain ⟨hb, m, hm, rfl⟩ := h.node_iff.1 hn
    obtain ⟨p, hp, rfl⟩ := List.mem_map.1 ha
    exact ⟨hb, p, ⟨m, hm, hp⟩, rfl⟩
  · rintro ⟨hb, p, ⟨n, hn, hp⟩, rfl⟩
    exact ⟨n.redirect old new, h.node_redirect hb hn, List.mem_map_of_mem hp⟩

/-- A new rank: what the old node reaches is lifted over the new one. -/
theorem ranked (hs : g.Sound) (h : g.Replaced old new g') : ∃ rank, g'.Ranked rank := by
  classical
  obtain ⟨rank, hr⟩ := hs.ranked
  have hun : ¬ ReflTransGen g.Feeds old new := by
    rw [← hs.reaches_iff h.old_live, h.unreached]
    exact Bool.false_ne_true
  refine ⟨fun x => if ReflTransGen g.Feeds old x then rank x + rank new + 1 else rank x, ?_⟩
  intro a b hf
  obtain ⟨-, p, hp, rfl⟩ := h.feeds_iff.1 hf
  have hlt := hr hp
  by_cases hpo : p = old
  · subst hpo
    simp only [substitute_self, if_neg hun, if_pos (ReflTransGen.single hp)]
    omega
  · rw [substitute_of_ne hpo]
    by_cases hreach : ReflTransGen g.Feeds old p
    · simp only [if_pos hreach, if_pos (hreach.tail hp)]
      omega
    · simp only [if_neg hreach]
      split <;> omega

/-- The edges are those of the inputs, redirected as the inputs are. -/
theorem edge_iff (hs : g.Sound) (h : g.Replaced old new g') {a b : NodeId} {slot : Nat} :
    ⟨a, b, slot⟩ ∈ g'.edges ↔ ∃ n, g'.node? b = some n ∧ n.inputs[slot]? = some a := by
  simp only [h.edges, h.node_iff, hs.edge_iff]
  constructor
  · rintro ⟨ha, hb, ⟨n, hn, hs⟩ | ⟨rfl, n, hn, hs⟩⟩
    · exact ⟨_, ⟨hb, n, hn, rfl⟩, by simp [Node.redirect, hs, substitute_of_ne ha]⟩
    · exact ⟨_, ⟨hb, n, hn, rfl⟩, by simp [Node.redirect, hs]⟩
  · rintro ⟨_, ⟨hb, n, hn, rfl⟩, hs⟩
    simp only [Node.redirect, List.getElem?_map, Option.map_eq_some_iff] at hs
    obtain ⟨p, hp, rfl⟩ := hs
    refine ⟨substitute_ne h.ne p, hb, ?_⟩
    by_cases hpo : p = old
    · subst hpo
      exact .inr ⟨substitute_self .., n, hn, hp⟩
    · rw [substitute_of_ne hpo]
      exact .inl ⟨n, hn, hp⟩

theorem sound (hs : g.Sound) (h : g.Replaced old new g') : g'.Sound where
  id_eq := by
    intro x n hn
    obtain ⟨-, m, hm, rfl⟩ := h.node_iff.1 hn
    exact (hs.id_eq hm : m.id = x)
  live := by
    intro a b hf
    obtain ⟨-, p, hp, rfl⟩ := h.feeds_iff.1 hf
    exact h.contains_substitute (hs.live hp)
  takes := by
    intro x n hn
    obtain ⟨-, m, hm, rfl⟩ := h.node_iff.1 hn
    simpa [Node.redirect] using hs.takes hm
  edge_iff := h.edge_iff hs
  ranked := h.ranked hs
  named := by
    intro x n hn
    obtain ⟨hx, m, hm, rfl⟩ := h.node_iff.1 hn
    rw [h.names]
    exact lookup_filter_of_ne (hs.named hm : g.names.lookup m.name = some x) hx
  vacant := by
    intro x hx
    rw [h.vacant, List.mem_cons] at hx
    exact (h.slots x).2 (hx.imp_right fun hv => hs.vacant hv)
  vacant_nodup := by
    rw [h.vacant, List.nodup_cons]
    refine ⟨fun hv => ?_, hs.vacant_nodup⟩
    have := h.old_live
    simp [contains, Graph.node?, hs.vacant hv] at this
  marked := by
    intro x hx
    rw [h.marked, List.mem_eraseDups, List.mem_map] at hx
    obtain ⟨p, hp, rfl⟩ := hx
    exact h.contains_substitute (hs.marked hp)

end Replaced

theorem Sound.replace (h : g.Sound) {rewire : Bool} (hr : g.replace old new rewire = .ok g') :
    g'.Sound :=
  (h.replaced hr).sound h

end Graph
end BufferFusion
