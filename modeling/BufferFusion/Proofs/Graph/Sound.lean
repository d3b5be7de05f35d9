import Mathlib.Data.List.Nodup
import Mathlib.Logic.Relation
import Mathlib.Tactic.ByContra
import BufferFusion.Graph.Build
import BufferFusion.Graph.Replace

/-!
# Sound graphs

What the parts of a graph say about each other: node ids, input lists, data edges, names and
vacancies. The nodes can be ranked so that every producer stands below its consumers, which is
how "acyclic" is said here. Adding a node keeps a graph sound.
-/
namespace BufferFusion.Graph

variable {g : Graph} {a b id : NodeId} {n : Node}

/-- The output of `a` is an input of `b`. -/
def Feeds (g : Graph) (a b : NodeId) : Prop := ∃ n, g.node? b = some n ∧ a ∈ n.inputs

/-- Every producer stands below its consumers. -/
def Ranked (g : Graph) (rank : NodeId → Nat) : Prop := ∀ {a b}, g.Feeds a b → rank a < rank b

structure Sound (g : Graph) : Prop where
  id_eq : ∀ {id n}, g.node? id = some n → n.id = id
  live : ∀ {a b}, g.Feeds a b → g.contains a = true
  takes : ∀ {id n}, g.node? id = some n → n.op.takes n.inputs.length = true
  edge_iff : ∀ {a b slot}, ⟨a, b, slot⟩ ∈ g.edges ↔
    ∃ n, g.node? b = some n ∧ n.inputs[slot]? = some a
  ranked : ∃ rank, g.Ranked rank
  named : ∀ {id n}, g.node? id = some n → g.names.lookup n.name = some id
  vacant : ∀ {id}, id ∈ g.vacant → g.slots[id]? = some none
  vacant_nodup : g.vacant.Nodup
  marked : ∀ {id}, id ∈ g.marked → g.contains id = true

theorem node?_eq_some : g.node? id = some n ↔ g.slots[id]? = some (some n) := by
  simp [node?, Option.join_eq_some_iff]

theorem mem_nodes : n ∈ g.nodes ↔ ∃ id, g.node? id = some n := by
  simp [nodes, List.mem_filterMap, node?_eq_some, List.mem_iff_getElem? (l := g.slots)]

theorem lt_of_node? (h : g.node? id = some n) : id < g.slots.length :=
  (List.getElem?_eq_some_iff.1 (node?_eq_some.1 h)).1

theorem Feeds.of_input {slot : Nat} (h : g.node? b = some n) (hs : n.inputs[slot]? = some a) :
    g.Feeds a b :=
  ⟨n, h, List.mem_of_getElem? hs⟩

theorem Feeds.contains_right (h : g.Feeds a b) : g.contains b = true :=
  let ⟨n, hn, _⟩ := h
  contains_iff.2 ⟨n, hn⟩

namespace Sound

theorem node_of_mem (h : g.Sound) (hn : n ∈ g.nodes) : g.node? n.id = some n := by
  obtain ⟨id, hid⟩ := mem_nodes.1 hn
  rwa [h.id_eq hid]

theorem exists_edge_iff (h : g.Sound) : (∃ slot, ⟨a, b, slot⟩ ∈ g.edges) ↔ g.Feeds a b := by
  simp only [h.edge_iff, Feeds]
  constructor
  · rintro ⟨slot, n, hn, hs⟩
    exact ⟨n, hn, List.mem_of_getElem? hs⟩
  · rintro ⟨n, hn, ha⟩
    obtain ⟨slot, hs⟩ := List.mem_iff_getElem?.1 ha
    exact ⟨slot, n, hn, hs⟩

theorem mem_outgoing_iff (h : g.Sound) : b ∈ g.outgoing a ↔ g.Feeds a b :=
  mem_outgoing.trans h.exists_edge_iff

theorem mem_consumers_iff (h : g.Sound) : b ∈ g.consumers a ↔ g.Feeds a b :=
  mem_consumers.trans h.mem_outgoing_iff

/-- A node with one consumer is read by that one only. -/
theorem feeds_iff_of_consumers (h : g.Sound) {c : NodeId} (hc : g.consumers a = [c]) :
    g.Feeds a b ↔ b = c := by
  rw [← h.mem_consumers_iff, hc, List.mem_singleton]

theorem mem_incoming_iff (h : g.Sound) : a ∈ g.incoming b ↔ g.Feeds a b :=
  mem_incoming.trans h.exists_edge_iff

theorem not_feeds_self (h : g.Sound) : ¬ g.Feeds a a := by
  obtain ⟨rank, hr⟩ := h.ranked
  exact fun hf => Nat.lt_irrefl _ (hr hf)

/-- Induction along the data edges, producers first. -/
theorem feeds_induction (h : g.Sound) {P : NodeId → Prop}
    (step : ∀ b, (∀ a, g.Feeds a b → P a) → P b) (id : NodeId) : P id := by
  obtain ⟨rank, hr⟩ := h.ranked
  induction hk : rank id using Nat.strongRecOn generalizing id with
  | ind k ih =>
    subst hk
    exact step id fun a ha => ih _ (hr ha) a rfl

theorem name_injective (h : g.Sound) {m : Node} {i j : NodeId} (hn : g.node? i = some n)
    (hm : g.node? j = some m) (he : n.name = m.name) : i = j := by
  have h₁ := h.named hn
  rw [he, h.named hm] at h₁
  exact (Option.some.inj h₁).symm

end Sound

theorem sound_empty : empty.Sound where
  id_eq h := by simp [node?, empty] at h
  live := by rintro a b ⟨n, h, -⟩; simp [node?, empty] at h
  takes h := by simp [node?, empty] at h
  edge_iff := by simp [node?, empty]
  ranked := ⟨fun _ => 0, by rintro a b ⟨n, h, -⟩; simp [node?, empty] at h⟩
  named h := by simp [node?, empty] at h
  vacant h := by simp [empty] at h
  vacant_nodup := List.nodup_nil
  marked h := by simp [empty] at h

/-! ### Adding a node -/

theorem node?_nextId (h : g.Sound) : g.node? g.nextId = none := by
  rw [nextId]
  cases hv : g.vacant with
  | nil => simp [node?]
  | cons v vs => simp [node?, h.vacant (hv ▸ List.mem_cons_self : v ∈ g.vacant)]

theorem node?_place (h : g.Sound) (name : String) (op : Operation) (inputs : List NodeId)
    (x : NodeId) : (g.place name op inputs).node? x =
      if x = g.nextId then some (Node.fresh g.nextId name op inputs) else g.node? x := by
  obtain hv | ⟨v, vs, hv⟩ : g.vacant = [] ∨ ∃ v vs, g.vacant = v :: vs := by
    cases g.vacant <;> simp
  · simp only [place, node?, nextId, hv, List.isEmpty_nil, if_true, List.head?_nil,
      Option.getD_none]
    rcases Nat.lt_trichotomy x g.slots.length with hx | hx | hx
    · rw [List.getElem?_append_left hx, if_neg (Nat.ne_of_lt hx)]
    · subst hx; simp
    · rw [List.getElem?_append_right (Nat.le_of_lt hx), if_neg (Nat.ne_of_gt hx),
        List.getElem?_eq_none (Nat.le_of_lt hx), List.getElem?_eq_none (by simp; omega)]
  · have hlt : v < g.slots.length :=
      (List.getElem?_eq_some_iff.1 (h.vacant (hv ▸ List.mem_cons_self : v ∈ g.vacant))).1
    simp only [place, node?, nextId, hv, List.isEmpty_cons, Bool.false_eq_true, if_false,
      List.head?_cons, Option.getD_some, List.getElem?_set]
    by_cases hx : x = v
    · subst hx; simp [hlt]
    · rw [if_neg (Ne.symm hx), if_neg hx]

theorem mem_inputEdges {inputs : List NodeId} {e : DataEdge} :
    e ∈ inputEdges id inputs ↔ e.consumer = id ∧ inputs[e.slot]? = some e.producer := by
  obtain ⟨p, c, s⟩ := e
  simp only [inputEdges, List.mem_mapIdx, DataEdge.mk.injEq, List.getElem?_eq_some_iff]
  constructor
  · rintro ⟨i, hi, rfl, rfl, rfl⟩
    exact ⟨rfl, hi, rfl⟩
  · rintro ⟨rfl, hi, rfl⟩
    exact ⟨s, hi, rfl, rfl, rfl⟩

/-- A new node stands above all its producers, whatever stands above it. -/
theorem exists_bound (rank : NodeId → Nat) (ids : List NodeId) : ∃ k, ∀ p ∈ ids, rank p < k := by
  induction ids with
  | nil => exact ⟨0, by simp⟩
  | cons p ps ih =>
    obtain ⟨k, hk⟩ := ih
    refine ⟨max k (rank p + 1), ?_⟩
    intro q hq
    rcases List.mem_cons.1 hq with rfl | hq
    · omega
    · have := hk q hq; omega

theorem ne_nextId (h : g.Sound) {x : NodeId} (hn : g.node? x = some n) : x ≠ g.nextId := by
  rintro rfl
  cases (node?_nextId h).symm.trans hn

section Place
variable {name : String} {op : Operation} {inputs : List NodeId} {x : NodeId}

theorem node_place_iff (h : g.Sound) : (g.place name op inputs).node? x = some n ↔
    x = g.nextId ∧ n = .fresh g.nextId name op inputs ∨ g.node? x = some n := by
  rw [node?_place h]
  split
  · next hx =>
    subst hx
    simp [node?_nextId h, eq_comm]
  · next hx => simp [hx]

/-- What was there before a node is added is there after it. -/
theorem node_place (h : g.Sound) (hn : g.node? x = some n) :
    (g.place name op inputs).node? x = some n :=
  (node_place_iff h).2 (.inr hn)

theorem contains_place (h : g.Sound) (hx : g.contains x = true) :
    (g.place name op inputs).contains x = true :=
  let ⟨n, hn⟩ := contains_iff.1 hx
  contains_iff.2 ⟨n, node_place h hn⟩

/-- The new node reads its inputs, and nothing reads it. -/
theorem feeds_place_iff (h : g.Sound) : (g.place name op inputs).Feeds a b ↔
    b = g.nextId ∧ a ∈ inputs ∨ g.Feeds a b := by
  simp only [Feeds, node_place_iff h]
  constructor
  · rintro ⟨n, ⟨rfl, rfl⟩ | hn, ha⟩
    · exact .inl ⟨rfl, ha⟩
    · exact .inr ⟨n, hn, ha⟩
  · rintro (⟨rfl, ha⟩ | ⟨n, hn, ha⟩)
    · exact ⟨_, .inl ⟨rfl, rfl⟩, ha⟩
    · exact ⟨n, .inr hn, ha⟩

theorem edge_place_iff (h : g.Sound) {slot : Nat} :
    ⟨a, b, slot⟩ ∈ (g.place name op inputs).edges ↔
      ∃ n, (g.place name op inputs).node? b = some n ∧ n.inputs[slot]? = some a := by
  have hedges : ⟨a, b, slot⟩ ∈ (g.place name op inputs).edges ↔
      (b = g.nextId ∧ inputs[slot]? = some a) ∨ ⟨a, b, slot⟩ ∈ g.edges := by
    simp only [place, List.mem_append, List.mem_reverse, mem_inputEdges]
  simp only [hedges, h.edge_iff, node_place_iff h]
  constructor
  · rintro (⟨rfl, hs⟩ | ⟨n, hn, hs⟩)
    · exact ⟨_, .inl ⟨rfl, rfl⟩, hs⟩
    · exact ⟨n, .inr hn, hs⟩
  · rintro ⟨n, ⟨rfl, rfl⟩ | hn, hs⟩
    · exact .inl ⟨rfl, hs⟩
    · exact .inr ⟨n, hn, hs⟩

theorem ranked_place (h : g.Sound) (hlive : ∀ p ∈ inputs, g.contains p = true) :
    ∃ rank, (g.place name op inputs).Ranked rank := by
  have hne : ∀ {x}, g.contains x = true → x ≠ g.nextId := fun hx =>
    let ⟨_, hn⟩ := contains_iff.1 hx
    ne_nextId h hn
  obtain ⟨rank, hr⟩ := h.ranked
  obtain ⟨k, hk⟩ := exists_bound rank inputs
  refine ⟨fun x => if x = g.nextId then k else rank x, ?_⟩
  intro a b hf
  rcases (feeds_place_iff h).1 hf with ⟨rfl, ha⟩ | hf
  · simpa only [if_neg (hne (hlive a ha)), if_true] using hk a ha
  · simpa only [if_neg (hne (h.live hf)), if_neg (hne hf.contains_right)] using hr hf

/-- The new node takes the first vacancy; those after it stay. -/
theorem vacant_place (h : g.Sound) {x : NodeId} (hx : x ∈ g.vacant.tail) :
    (g.place name op inputs).slots[x]? = some none := by
  have hold := h.vacant (List.mem_of_mem_tail hx)
  cases hv : g.vacant with
  | nil => simp [hv] at hx
  | cons v vs =>
    have hne : v ≠ x := by
      have hnodup := h.vacant_nodup
      rw [hv] at hnodup hx
      exact fun he => (List.nodup_cons.1 hnodup).1 (he ▸ hx)
    simp only [place, hv, List.isEmpty_cons, Bool.false_eq_true, if_false, nextId,
      List.head?_cons, Option.getD_some]
    rwa [List.getElem?_set_ne hne]

theorem Sound.place (h : g.Sound) (hname : g.names.lookup name = none)
    (htakes : op.takes inputs.length = true) (hlive : ∀ p ∈ inputs, g.contains p = true) :
    (g.place name op inputs).Sound where
  id_eq := by
    intro x n hn
    rcases (node_place_iff h).1 hn with ⟨rfl, rfl⟩ | hn
    · rfl
    · exact h.id_eq hn
  live := by
    intro a b hf
    rcases (feeds_place_iff h).1 hf with ⟨-, ha⟩ | hf
    · exact contains_place h (hlive a ha)
    · exact contains_place h (h.live hf)
  takes := by
    intro x n hn
    rcases (node_place_iff h).1 hn with ⟨-, rfl⟩ | hn
    · exact htakes
    · exact h.takes hn
  edge_iff := edge_place_iff h
  ranked := ranked_place h hlive
  named := by
    intro x n hn
    simp only [Graph.place, List.lookup_cons]
    rcases (node_place_iff h).1 hn with ⟨rfl, rfl⟩ | hn
    · simp [Node.fresh]
    · have hx := h.named hn
      have hne : (n.name == name) = false := by
        rw [beq_eq_false_iff_ne]
        rintro rfl
        simp [hname] at hx
      rw [hne]
      exact hx
  vacant := vacant_place h
  vacant_nodup := h.vacant_nodup.tail
  marked := fun hx => contains_place h (h.marked hx)

end Place

theorem Sound.add (h : g.Sound) {name : String} {op : Operation} {inputs : List NodeId}
    {g' : Graph} {id : NodeId} (hadd : g.add name op inputs = .ok (g', id)) : g'.Sound := by
  obtain ⟨_, hcheck, hok⟩ := Result.bind_eq_ok.1 hadd
  obtain ⟨rfl, -⟩ := Prod.mk.inj (Except.ok.inj hok)
  simp only [checkNode] at hcheck
  split at hcheck
  · cases hcheck
  · next hname =>
    split at hcheck
    · cases hcheck
    · next htakes =>
      split at hcheck
      · cases hcheck
      · next hfind =>
        refine h.place (by simpa only [Bool.not_eq_true, Option.isSome_eq_false_iff, Option.isNone_iff_eq_none] using hname) (by simpa using htakes) ?_
        simpa using hfind

theorem Sound.addWindows (h : g.Sound) {split : String} {input : NodeId} {shape : List Nat}
    {axis i start : Nat} {sizes : List Nat} :
    (g.addWindows split input shape axis i start sizes).1.Sound := by
  induction sizes generalizing g i start with
  | nil => exact h
  | cons size sizes ih =>
    simp only [Graph.addWindows]
    split
    · exact h
    · next hadd => exact ih (h.add hadd)

theorem Sound.split (h : g.Sound) (name : String) (input : NodeId) (axis : Nat)
    (sizes : List Nat) : (g.split name input axis sizes).1.Sound := by
  simp only [Graph.split]
  split
  · exact h
  · exact h.addWindows

theorem Sound.mark (h : g.Sound) {id : NodeId} {g' : Graph} (hm : g.mark id = .ok g') :
    g'.Sound := by
  obtain ⟨n, hn, hok⟩ := Result.bind_eq_ok.1 hm
  have hlive := contains_iff.2 ⟨n, get_eq_ok.1 hn⟩
  obtain rfl := Except.ok.inj hok
  split
  · exact h
  · refine { h with marked := ?_ }
    intro x hx
    rcases List.mem_append.1 hx with hx | hx
    · exact h.marked hx
    · rwa [List.mem_singleton.1 hx]

end BufferFusion.Graph
