import Mathlib.Order.Bounds.Defs
import BufferFusion.Proofs.Execution.Bindings
import BufferFusion.Proofs.Sharing.Components

/-!
# A plan is a partition

The buffers of a plan are the components of a graph's edges. Each node is in one of them, which is as
large as its largest member, and allocating the plan binds two nodes to one memory if and only if they
are in one buffer.
-/
namespace BufferFusion

open Graph Sharing

variable {g : Graph} {plan : BufferPlan} {buffer : LogicalBuffer} {a a' : Allocator} {b : Bindings}
  {m : List NodeId} {x y : NodeId} {n : Nat}

namespace Graph

/-- Every edge joins two different nodes of the graph. -/
def Paired (g : Graph) : Prop :=
  ∀ e ∈ g.sharing.edges, e.owner ≠ e.member ∧ g.contains e.owner = true ∧ g.contains e.member = true

instance : Decidable g.Paired :=
  inferInstanceAs (Decidable (∀ e ∈ g.sharing.edges, _ ∧ _ ∧ _))

/-- Every node has a sound layout whose shape and padding are known. -/
def LaidOut (g : Graph) : Prop :=
  ∀ x, g.contains x = true → ∃ l, g.layout x = .ok l ∧ l.validate = .ok () ∧ l.isStatic = true ∧
    l.padding.hasDynamic = false

/-- The layout of a node takes `n` elements. -/
def Takes (g : Graph) (x : NodeId) (n : Nat) : Prop :=
  ∃ l, g.layout x = .ok l ∧ l.footprint = .ok n

theorem Takes.unique {n' : Nat} (h : g.Takes x n) (h' : g.Takes x n') : n = n' := by
  obtain ⟨l, hl, hn⟩ := h
  obtain ⟨l', hl', hn'⟩ := h'
  obtain rfl := Except.ok.inj (hl.symm.trans hl')
  exact Except.ok.inj (hn.symm.trans hn')

theorem Paired.contains_of_mem_nodes (h : g.Paired) (hx : x ∈ g.sharing.nodes) :
    g.contains x = true := by
  obtain ⟨e, he, rfl | rfl⟩ := Sharing.mem_nodes.1 hx
  · exact (h e he).2.1
  · exact (h e he).2.2

end Graph

/-- The buffers of a plan share the nodes of a graph out among them. -/
structure BufferPlan.Partitions (plan : BufferPlan) (g : Graph) : Prop where
  /-- Every node of the graph is in a buffer, and no other id is. -/
  contains_iff : ∀ x, g.contains x = true ↔ ∃ buffer ∈ plan.buffers, x ∈ buffer.members
  /-- No two buffers have a node in common. -/
  disjoint : plan.buffers.Pairwise fun buffer buffer' => buffer.members.Disjoint buffer'.members
  ascending : ∀ buffer ∈ plan.buffers, buffer.members.Pairwise (· < ·)
  /-- With a node, a buffer has those that edges connect to it. -/
  connected : ∀ buffer ∈ plan.buffers, ∀ x ∈ buffer.members, ∀ y,
    y ∈ buffer.members ↔ Connected g.sharing.edges x y
  /-- A buffer is as large as its largest member. -/
  largest : ∀ buffer ∈ plan.buffers,
    IsGreatest (Set.ofPred fun n => ∃ x ∈ buffer.members, g.Takes x n) buffer.elements

namespace BufferPlan

theorem measure_ok (h : g.Takes x n) : ∃ p, measure g x = .ok p := by
  obtain ⟨l, hl, hn⟩ := h
  obtain ⟨node, hnode, -⟩ := layout_eq_ok.1 hl
  refine ⟨(node.name, n), ?_⟩
  rw [measure, hl]
  change l.footprint >>= _ = _
  rw [hn, get_eq_ok.2 hnode]
  rfl

theorem buffer?_ok (h : ∀ x ∈ m, ∃ n, g.Takes x n) : ∃ found, buffer? g m = .ok found := by
  obtain ⟨measured, hmeasured⟩ := Result.exists_mapM fun x hx => (h x hx).elim fun _ => measure_ok
  cases m with
  | nil => exact ⟨none, rfl⟩
  | cons first rest =>
    obtain ⟨n, l, hl, -⟩ := h first List.mem_cons_self
    exact ⟨_, Result.bind_eq_ok.2 ⟨measured, hmeasured, Result.bind_eq_ok.2 ⟨l, hl, rfl⟩⟩⟩

/-- A plan is made if and only if the layout of every node has a size. -/
theorem ofGraph_ok_iff (hs : g.Sound) (hp : g.Paired) :
    (∃ plan, ofGraph g = .ok plan) ↔ ∀ x, g.contains x = true → ∃ n, g.Takes x n := by
  constructor
  · rintro ⟨plan, hplan⟩ x hx
    obtain ⟨buffer, hbuffer⟩ := exists_bufferOf? hs hplan hx
    obtain ⟨hmem, hin⟩ := mem_of_bufferOf? hbuffer
    obtain ⟨l, n, hl, hn, -⟩ := (mem_buffers hplan hmem).2 x hin
    exact ⟨n, l, hl, hn⟩
  · intro h
    obtain ⟨found, hfound⟩ : ∃ found, (memberSets g).mapM (buffer? g) = .ok found :=
      Result.exists_mapM fun m hm => buffer?_ok fun x hx =>
        h x (contains_of_mem hs (fun _ => hp.contains_of_mem_nodes) hm hx)
    exact ⟨_, by rw [ofGraph, hfound]; rfl⟩

/-- Each set of nodes has become a buffer. -/
theorem map_members (h : ofGraph g = .ok plan) : plan.buffers.map (·.members) = memberSets g := by
  obtain ⟨found, hfound, hplan⟩ := Result.bind_eq_ok.1 h
  obtain rfl := Except.ok.inj hplan
  have hne : ∀ m ∈ memberSets g, m ≠ [] := by
    intro m hm
    rcases mem_memberSets.1 hm with hm | ⟨z, -, -, rfl⟩
    · rcases Sharing.mem_components hm with hm | ⟨z, -, rfl⟩
      · cases hm
      · exact List.ne_nil_of_mem (self_mem_component _ z)
    · exact List.cons_ne_nil _ _
  have hall := Result.mapM_eq_ok.1 hfound
  clear h hplan hfound
  generalize memberSets g = sets at hne hall
  induction hall with
  | nil => rfl
  | cons hbuffer _ ih =>
    rw [List.forall_mem_cons] at hne
    obtain ⟨hnil, -⟩ | ⟨buffer, rfl, rfl, -⟩ := buffer?_eq_ok hbuffer
    · exact absurd hnil hne.1
    · simpa using ih hne.2

theorem pairwise_of_mem_memberSets (hm : m ∈ memberSets g) : m.Pairwise (· < ·) := by
  rcases mem_memberSets.1 hm with hm | ⟨z, -, -, rfl⟩
  · rcases Sharing.mem_components hm with hm | ⟨z, -, rfl⟩
    · cases hm
    · exact pairwise_component _ z
  · exact List.pairwise_singleton _ z

/-- No two sets have a node in common: the leaders of two groups are not connected. -/
theorem memberSets_pairwise (hs : g.Sound) (hp : g.Paired) :
    (memberSets g).Pairwise List.Disjoint := by
  obtain ⟨leaders, hleaders, hmem, hgroups⟩ := groups_eq fun e he => (hp e he).1
  refine List.pairwise_append.2 ⟨?_, ?_, ?_⟩
  · rw [show g.sharing.groups = leaders.map (component g.sharing.edges) from hgroups,
      List.pairwise_map]
    refine hleaders.imp_of_mem fun {x y} hx hy hlt z hzx hzy => ?_
    have hyx := (mem_component.1 hzy).trans (mem_component.1 hzx).symm
    exact Nat.not_le_of_lt hlt (((hmem y).1 hy).2 x hyx)
  · rw [List.pairwise_map]
    refine (hs.order_nodup.filter _).imp fun {x y} hne z hx hy => hne ?_
    rw [← List.mem_singleton.1 hx, ← List.mem_singleton.1 hy]
  · intro group hgroup single hsingle z hz hz'
    obtain ⟨x, hx, rfl⟩ := List.mem_map.1 hsingle
    obtain rfl := List.mem_singleton.1 hz'
    have hout : ∀ group ∈ g.sharing.groups, z ∉ group := by simpa using (List.mem_filter.1 hx).2
    exact hout group hgroup hz

theorem partitions (hs : g.Sound) (hp : g.Paired) (h : ofGraph g = .ok plan) :
    plan.Partitions g := by
  have hmembers : ∀ {buffer}, buffer ∈ plan.buffers → buffer.members ∈ memberSets g :=
    fun hb => (mem_buffers h hb).1
  constructor
  · refine fun x => ⟨fun hx => ?_, fun ⟨buffer, hbuffer, hx⟩ => ?_⟩
    · obtain ⟨buffer, hbuffer⟩ := exists_bufferOf? hs h hx
      exact ⟨buffer, mem_of_bufferOf? hbuffer⟩
    · exact contains_of_mem hs (fun _ => hp.contains_of_mem_nodes) (hmembers hbuffer) hx
  · exact List.pairwise_map.1 (map_members h ▸ memberSets_pairwise hs hp)
  · exact fun buffer hb => pairwise_of_mem_memberSets (hmembers hb)
  · exact fun buffer hb x hx y => ⟨connected_of_mem (hmembers hb) hx,
      fun hxy => (mem_iff_of_connected (hmembers hb) hxy).1 hx⟩
  · refine fun buffer hb => ⟨exists_largest h hb, fun n ⟨x, hx, htakes⟩ => ?_⟩
    obtain ⟨l, n', hl, hn', hle⟩ := (mem_buffers h hb).2 x hx
    obtain rfl := htakes.unique ⟨l, hl, hn'⟩
    exact hle

/-- Allocating binds two nodes to one memory if and only if they are in one buffer. -/
theorem number?_eq_iff (hs : g.Sound) (hp : g.Paired) (h : ofGraph g = .ok plan)
    (ha : plan.allocate a = (a', .ok b)) (hx : g.contains x = true) :
    b.number? x = b.number? y ↔ ∃ buffer ∈ plan.buffers, x ∈ buffer.members ∧ y ∈ buffer.members := by
  have k := partitions hs hp h
  obtain ⟨number, -, buffer, hbuffer, hnumber, -, hin, -⟩ := exists_memory h ha hs hx
  constructor
  · intro he
    have hxy := connected_of_number? h ha hnumber (he.symm.trans hnumber)
    exact ⟨buffer, hbuffer, hin, (k.connected buffer hbuffer x hin y).2 hxy⟩
  · rintro ⟨buffer', hbuffer', hin', hy'⟩
    exact number?_congr h ha ((k.connected buffer' hbuffer' x hin' y).1 hy')

end BufferPlan

/-- The groups of a graph are the components of more than one node, each once and in the order of
their least nodes, and the buffer of a node is its component. A plan is made if and only if the layout
of every node has a size, and for sound and known layouts this can fail by an overflow only. Its
buffers then share the nodes out, and allocating it binds every node to a memory, two of them to one
memory if and only if they are in one buffer. -/
theorem Graph.Reachable.partitioned (hg : g.Reachable) (hp : g.Paired) :
    (∃ leaders : List NodeId, leaders.Pairwise (· < ·) ∧
      (∀ x, x ∈ leaders ↔
        (∃ y, y ≠ x ∧ Connected g.sharing.edges x y) ∧ Leads g.sharing.edges x) ∧
      g.sharing.groups = leaders.map g.sharing.bufferOf) ∧
    (∀ x, (g.sharing.bufferOf x).Pairwise (· < ·) ∧
      ∀ y, y ∈ g.sharing.bufferOf x ↔ Connected g.sharing.edges x y) ∧
    ((∃ plan, BufferPlan.ofGraph g = .ok plan) ↔ ∀ x, g.contains x = true → ∃ n, g.Takes x n) ∧
    (g.LaidOut → BufferPlan.ofGraph g ≠ .error (.fault .overflow) →
      ∃ plan, BufferPlan.ofGraph g = .ok plan) ∧
    ∀ plan, BufferPlan.ofGraph g = .ok plan → plan.Partitions g ∧
      ((∀ buffer ∈ plan.buffers, buffer.elements ≤ Size.capacity 8) →
        ∃ a b, plan.allocate (.withLimit none) = (a, .ok b)) ∧
      ∀ a a' b, plan.allocate a = (a', .ok b) →
        (∀ x, g.contains x = true → ∃ m, b.memory? x = some m) ∧
        ∀ x y, g.contains x = true →
          (b.number? x = b.number? y ↔
            ∃ buffer ∈ plan.buffers, x ∈ buffer.members ∧ y ∈ buffer.members) := by
  have hs := hg.sound
  refine ⟨groups_eq fun e he => (hp e he).1, fun x => ⟨pairwise_component _ x, fun y => mem_component⟩,
    BufferPlan.ofGraph_ok_iff hs hp, fun hlaid hno => ?_, fun plan hplan => ⟨?_, ?_, ?_⟩⟩
  · refine (BufferPlan.ofGraph_onlyOverflow_of_layouts hs (fun _ => hp.contains_of_mem_nodes)
      fun x hx => ?_).eq_ok hno
    obtain ⟨l, hl, hv, hstatic, hsettled⟩ := hlaid x hx
    exact ⟨l, hl, Layout.footprint_onlyOverflow hstatic hsettled ((Layout.validate_eq_ok_iff l).1 hv)⟩
  · exact BufferPlan.partitions hs hp hplan
  · exact fun hsmall => BufferPlan.allocateFrom_ok rfl hsmall
  · refine fun a a' b ha => ⟨fun x hx => ?_, fun x y => BufferPlan.number?_eq_iff hs hp hplan ha⟩
    obtain ⟨number, m, -, -, hnumber, hm, -⟩ := BufferPlan.exists_memory hplan ha hs hx
    exact ⟨m, Bindings.memory?_eq_some.2 ⟨number, hnumber, hm⟩⟩

/-- Three inputs that edges join to a ring, and one that stands alone. -/
def Graph.ringSample : Graph :=
  (InferenceTable.standard.inferGraph []
    ((((empty.place "a" (.input (.plain (.ofSizes [2]) .f32)) []).place "b"
      (.input (.plain (.ofSizes [3]) .f32)) []).place "c" (.input (.plain (.ofSizes [1]) .f32)) []).place
        "d" (.input (.plain (.ofSizes [5]) .f32)) [])).1.setSharing
    ⟨[⟨0, 2, .view 0⟩, ⟨2, 1, .view 0⟩, ⟨1, 0, .view 0⟩]⟩

theorem Graph.reachable_ringSample : ringSample.Reachable :=
  .setSharing _ ((Built.empty.place rfl |>.place rfl |>.place rfl |>.place rfl).reachable.inferAlong ..)

/-- The ring is one buffer, the node that stands alone another. -/
theorem partitioned_ringSample : ∃ plan a b, BufferPlan.ofGraph ringSample = .ok plan ∧
    plan.Partitions ringSample ∧ plan.allocate (.withLimit none) = (a, .ok b) ∧
    b.number? 0 = b.number? 1 ∧ b.number? 0 ≠ b.number? 3 := by
  obtain ⟨-, -, -, -, h⟩ := reachable_ringSample.partitioned (by decide)
  obtain ⟨k, hallocates, hbound⟩ := h _ rfl
  obtain ⟨a, b, hab⟩ := hallocates (by decide)
  obtain ⟨-, hsame⟩ := hbound _ a b hab
  refine ⟨_, a, b, rfl, k, hab, (hsame 0 1 rfl).2 (by decide), fun he => ?_⟩
  exact absurd ((hsame 0 3 rfl).1 he) (by decide)

/-- An input without elements, whose first two extents have a product that does not fit a word. -/
def Graph.vastSample : Graph :=
  (InferenceTable.standard.inferGraph []
    (empty.place "x" (.input (.plain (.ofSizes [4294967296, 4294967296, 0]) .f32)) [])).1

/-- A size that overflows on the way is missing, so no plan is made. -/
theorem not_planned_vastSample : vastSample.Reachable ∧ vastSample.Paired ∧
    vastSample.LaidOut ∧ BufferPlan.ofGraph vastSample = .error (.fault .overflow) := by
  refine ⟨(Built.empty.place rfl).reachable.inferAlong .., by decide, fun x hx => ?_, rfl⟩
  obtain rfl : x = 0 := by
    obtain ⟨n, hn⟩ := contains_iff.1 hx
    exact Nat.lt_one_iff.1 (lt_of_node? hn)
  exact ⟨_, rfl, rfl, rfl, rfl⟩

end BufferFusion
