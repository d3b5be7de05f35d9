import BufferFusion.Proofs.Execution.Planned

/-!
# Bindings

Allocating a plan binds every node to a memory with room for its layout, and two nodes to the same
one if and only if their edges connect them.
-/
namespace BufferFusion

open Graph

variable {g : Graph} {values : InputValues} {plan : BufferPlan} {buffer : LogicalBuffer}
  {buffers : List LogicalBuffer} {a a' : Allocator} {b b' : Bindings} {x y : NodeId} {number : Nat}

theorem List.findIdx?_congr {α : Type} {p q : α → Bool} {xs : List α} (h : ∀ x ∈ xs, p x = q x) :
    xs.findIdx? p = xs.findIdx? q := by
  induction xs with
  | nil => rfl
  | cons x xs ih =>
    rw [List.forall_mem_cons] at h
    rw [List.findIdx?_cons, List.findIdx?_cons, h.1, ih h.2]

namespace Bindings

theorem number?_bind (b : Bindings) (members : List NodeId) (m : Memory) (x : NodeId) :
    (b.bind members m).number? x =
      (b.number? x).or (if x ∈ members then some b.memories.length else none) := by
  have hnew : (members.map fun id => (id, b.memories.length)).lookup x =
      if x ∈ members then some b.memories.length else none := by
    induction members with
    | nil => rfl
    | cons id members ih =>
      rw [List.map_cons, List.lookup_cons, ih]
      by_cases hx : x = id
      · simp [hx]
      · simp [hx, beq_eq_false_iff_ne.2 hx]
  rw [number?, bind, List.lookup_append, hnew, number?]

theorem memory?_eq_some {m : Memory} : b.memory? x = some m ↔
    ∃ number, b.number? x = some number ∧ b.memories[number]? = some m := by
  rw [memory?]
  exact Option.bind_eq_some_iff

end Bindings

namespace BufferPlan

theorem zeroed_eq_ok {size : Nat} {element : ElementType} {m : Memory}
    (h : Memory.zeroed size element = .ok m) : size ≤ Size.capacity 8 ∧ m.size = size := by
  obtain ⟨_, hr, h⟩ := Result.bind_eq_ok.1 h
  obtain rfl := Except.ok.inj h
  exact ⟨Size.reserve_eq_ok.1 hr, by simp [Memory.size]⟩

/-- What allocating buffers one after the other makes of bindings. -/
theorem allocateFrom_eq_ok (h : allocateFrom buffers a b = (a', .ok b')) :
    (∀ x, b'.number? x = (b.number? x).or
      ((buffers.findIdx? (·.members.contains x)).map (b.memories.length + ·))) ∧
    (∀ i, i < b.memories.length → b'.memories[i]? = b.memories[i]?) ∧
      ∀ i buffer, buffers[i]? = some buffer → buffer.elements ≤ Size.capacity 8 ∧
        ∃ m, b'.memories[b.memories.length + i]? = some m ∧ m.size = buffer.elements := by
  induction buffers generalizing a b with
  | nil =>
    obtain ⟨-, h⟩ := Prod.mk.inj h
    obtain rfl := Except.ok.inj h
    simp
  | cons buffer buffers ih =>
    simp only [allocateFrom] at h
    split at h
    · cases (Prod.mk.inj h).2
    next a₁ m hm =>
    obtain ⟨hsmall, hsize⟩ : buffer.elements ≤ Size.capacity 8 ∧ m.size = buffer.elements := by
      simp only [Allocator.allocate] at hm
      split at hm
      · cases (Prod.mk.inj hm).2
      · exact zeroed_eq_ok (Prod.mk.inj hm).2
    obtain ⟨hnumber, hkeep, hnew⟩ := ih h
    have hlen : (b.bind buffer.members m).memories.length = b.memories.length + 1 := by
      simp [Bindings.bind]
    rw [hlen] at hnumber hkeep hnew
    refine ⟨fun x => ?_, fun i hi => ?_, fun i other hother => ?_⟩
    · rw [hnumber, Bindings.number?_bind, List.findIdx?_cons]
      by_cases hx : x ∈ buffer.members
      · simp [hx]
      · simp [hx, Option.map_map, Function.comp_def, Nat.add_assoc, Nat.add_comm 1]
    · rw [hkeep i (Nat.lt_succ_of_lt hi), Bindings.bind, List.getElem?_append_left hi]
    · cases i with
      | zero =>
        obtain rfl := Option.some.inj hother
        refine ⟨hsmall, m, ?_, hsize⟩
        rw [Nat.add_zero, hkeep _ (Nat.lt_succ_self _), Bindings.bind]
        simp
      | succ i =>
        obtain ⟨hsmall, m', hm', hsize'⟩ := hnew i other hother
        refine ⟨hsmall, m', ?_, hsize'⟩
        rwa [Nat.add_assoc, Nat.add_comm 1] at hm'

/-- Without a limit every buffer that is small enough for one allocation is allocated. -/
theorem allocateFrom_ok (hlimit : a.limit = none)
    (h : ∀ buffer ∈ buffers, buffer.elements ≤ Size.capacity 8) :
    ∃ a' b', allocateFrom buffers a b = (a', .ok b') := by
  induction buffers generalizing a b with
  | nil => exact ⟨a, b, rfl⟩
  | cons buffer buffers ih =>
    rw [List.forall_mem_cons] at h
    have hroom : Size.reserve 8 buffer.elements = .ok () := Size.reserve_eq_ok.2 h.1
    have hfree : a.exceeded? buffer.elements = none := by
      rw [Allocator.exceeded?, hlimit]
      rfl
    simp only [allocateFrom, Allocator.allocate, hfree, Memory.zeroed, hroom, Except.bind, Bind.bind]
    exact ih hlimit h.2

end BufferPlan

/-- Bindings for a graph. -/
structure Graph.Housed (g : Graph) (b : Bindings) : Prop where
  /-- A node's memory has room for its layout. -/
  room : ∀ {x}, g.contains x = true → ∃ m, b.memory? x = some m ∧
    ∀ l, g.layout x = .ok l → ∃ n, l.footprint = .ok n ∧ n ≤ m.size
  /-- No memory is larger than an allocation can be. -/
  small : ∀ {x m}, b.memory? x = some m → m.size ≤ Size.capacity 8
  /-- Nodes that share a buffer are bound to one memory. -/
  same : ∀ {x y}, Sharing.Connected g.sharing.edges x y → b.number? x = b.number? y
  /-- Nodes that do not are bound to different ones. -/
  apart : ∀ {x y number}, b.number? x = some number → b.number? y = some number →
    Sharing.Connected g.sharing.edges x y

/-- Of connected nodes both are in a set or neither is. -/
theorem BufferPlan.mem_iff_of_connected {m : List NodeId} (hm : m ∈ memberSets g)
    (hxy : Sharing.Connected g.sharing.edges x y) : x ∈ m ↔ y ∈ m := by
  rcases mem_memberSets.1 hm with hm | ⟨z, -, hout, rfl⟩
  · rcases Sharing.mem_components hm with hm | ⟨z, -, rfl⟩
    · cases hm
    · rw [Sharing.mem_component, Sharing.mem_component]
      exact ⟨fun hx => hx.trans hxy, fun hy => hy.trans hxy.symm⟩
  · -- a node on its own has no edges
    have halone : ∀ {c}, ¬ Sharing.Adjacent g.sharing.edges z c := by
      rintro c ⟨e, he, hends⟩
      have hz : z ∈ g.sharing.nodes :=
        Sharing.mem_nodes.2 ⟨e, he, hends.imp (fun h => h.1) (fun h => h.2)⟩
      obtain ⟨group, hgroup, hin⟩ : ∃ group ∈ g.sharing.groups, z ∈ group :=
        Sharing.exists_mem_components hz
      exact hout group hgroup hin
    have hself : ∀ {c}, Sharing.Connected g.sharing.edges z c → z = c := by
      intro c hc
      obtain rfl | ⟨d, hd, -⟩ := hc.cases_head
      · rfl
      · exact absurd hd halone
    rw [List.mem_singleton, List.mem_singleton]
    constructor
    · rintro rfl
      exact (hself hxy).symm
    · rintro rfl
      exact (hself hxy.symm).symm

namespace BufferPlan

/-- Each node is bound to the memory of the first buffer that it is a member of. -/
theorem number?_allocate (h : plan.allocate a = (a', .ok b)) (x : NodeId) :
    b.number? x = plan.buffers.findIdx? (·.members.contains x) := by
  rw [(allocateFrom_eq_ok h).1, Bindings.empty, List.length_nil]
  simp [Bindings.number?]

variable (hplan : ofGraph g = .ok plan) (h : plan.allocate a = (a', .ok b))

include hplan h

/-- Each node is bound to the memory of a buffer that it is a member of. -/
theorem exists_memory (hs : g.Sound) (hx : g.contains x = true) :
    ∃ number m, ∃ buffer ∈ plan.buffers, b.number? x = some number ∧
      b.memories[number]? = some m ∧ x ∈ buffer.members ∧ m.size = buffer.elements := by
  obtain ⟨buffer, hbuffer⟩ := exists_bufferOf? hs hplan hx
  obtain ⟨hmem, hin⟩ := mem_of_bufferOf? hbuffer
  obtain ⟨i, hi⟩ : ∃ i, plan.buffers.findIdx? (·.members.contains x) = some i := by
    rw [← Option.isSome_iff_exists, List.findIdx?_isSome, List.any_eq_true]
    exact ⟨buffer, hmem, by simpa using hin⟩
  obtain ⟨hlt, hcontains, -⟩ := List.findIdx?_eq_some_iff_getElem.1 hi
  obtain ⟨-, m, hm, hsize⟩ := (allocateFrom_eq_ok h).2.2 i _ (List.getElem?_eq_getElem hlt)
  rw [Bindings.empty, List.length_nil, Nat.zero_add] at hm
  exact ⟨i, m, _, List.getElem_mem hlt, (number?_allocate h x).trans hi, hm, by simpa using hcontains,
    hsize⟩

/-- Connected nodes are bound to one memory. -/
theorem number?_congr (hxy : Sharing.Connected g.sharing.edges x y) : b.number? x = b.number? y := by
  rw [number?_allocate h, number?_allocate h]
  apply BufferFusion.List.findIdx?_congr
  intro buffer hbuffer
  have hiff := mem_iff_of_connected (mem_buffers hplan hbuffer).1 hxy
  simp [hiff]

/-- Nodes that are bound to one memory are connected. -/
theorem connected_of_number? (hx : b.number? x = some number) (hy : b.number? y = some number) :
    Sharing.Connected g.sharing.edges x y := by
  rw [number?_allocate h] at hx hy
  obtain ⟨hlt, hcx, -⟩ := List.findIdx?_eq_some_iff_getElem.1 hx
  obtain ⟨hlt', hcy, -⟩ := List.findIdx?_eq_some_iff_getElem.1 hy
  exact connected_of_mem (mem_buffers hplan (List.getElem_mem hlt)).1
    (by simpa using hcx) (by simpa using hcy)

end BufferPlan

/-- What allocating a plan binds. -/
theorem Ready.housed (k : Ready g values) (hplan : BufferPlan.ofGraph g = .ok plan)
    (h : plan.allocate a = (a', .ok b)) : g.Housed b := by
  refine ⟨fun {x} hx => ?_, fun {x m} hm => ?_, BufferPlan.number?_congr hplan h,
    BufferPlan.connected_of_number? hplan h⟩
  · obtain ⟨number, m, buffer, hbuffer, hnumber, hm, hin, hsize⟩ :=
      BufferPlan.exists_memory hplan h k.sound hx
    refine ⟨m, Bindings.memory?_eq_some.2 ⟨number, hnumber, hm⟩, fun l hl => ?_⟩
    obtain ⟨l', n, hl', hn, hle⟩ := (BufferPlan.mem_buffers hplan hbuffer).2 x hin
    obtain rfl := Except.ok.inj (hl.symm.trans hl')
    exact ⟨n, hn, hsize ▸ hle⟩
  · obtain ⟨i, hi, hm⟩ := Bindings.memory?_eq_some.1 hm
    rw [BufferPlan.number?_allocate h] at hi
    obtain ⟨hlt, -⟩ := List.findIdx?_eq_some_iff_getElem.1 hi
    obtain ⟨hsmall, m', hm', hsize⟩ :=
      (BufferPlan.allocateFrom_eq_ok h).2.2 i _ (List.getElem?_eq_getElem hlt)
    rw [Bindings.empty, List.length_nil, Nat.zero_add] at hm'
    obtain rfl := Option.some.inj (hm.symm.trans hm')
    exact hsize ▸ hsmall

end BufferFusion
