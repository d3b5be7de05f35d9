import BufferFusion.Proofs.Fusion.Agree
import BufferFusion.Proofs.Fusion.Roots
import BufferFusion.Proofs.Inference.Relaid

/-!
# Revalidation

States and edges agree when fusion has ended, and they do so after every execution that resolves
the shapes and rechecks the decisions, however often that is done.
-/
namespace BufferFusion.Graph

open Relation

variable {g h : Graph} {id : NodeId}

/-- A node owns exactly one slice edge per input: slice `i` has input `i` as its member, begins
where the extents of the inputs before it end, and is as long as input `i`. -/
structure Sliced (g : Graph) (id : NodeId) (n : Node) (axis : Nat) : Prop where
  slice : ∀ i m, n.inputs[i]? = some m → ∃ earlier before extent,
    List.Forall₂ (fun m d => g.dim? axis m = some d) (n.inputs.take i) earlier ∧
      earlier.foldlM Dim.add (.known 0) = .ok before ∧ g.dim? axis m = some extent ∧
      g.sharing.edges.filter (fun e => e.owner == id && e.placement.index? == some i) =
        [⟨id, m, .slice i axis before extent⟩]
  index : ∀ e ∈ g.sharing.edges, e.owner = id → ∀ i, e.placement.index? = some i →
    i < n.inputs.length

/-- States and edges say the same about who lies where. -/
structure Agrees (g : Graph) : Prop where
  /-- Views are the members of view edges, -/
  view_iff : ∀ id, (∃ into, g.AliasOf id into) ↔
    ∃ e ∈ g.sharing.edges, e.member = id ∧ e.placement.isView = true
  /-- each inside the buffer of its first input, at the offset that its state has. -/
  view : ∀ e ∈ g.sharing.edges, ∀ offset, e.placement = .view offset →
    g.state? e.member = some (.optimized e.owner offset) ∧ g.input e.member 0 = .ok e.owner
  /-- Concatenations done in place are those that own a slice for each input. -/
  inPlace_iff : ∀ id, (∃ offset, g.state? id = some (.optimized id offset)) ↔
    ∃ n axis, g.node? id = some n ∧ n.op = .concatenation axis ∧ g.Sliced id n axis
  /-- Who writes a slice keeps its kernel, has no other consumer and lends nothing. -/
  writer : ∀ e ∈ g.sharing.edges, e.placement.isSlice = true →
    (∃ s, g.state? e.member = some s ∧ s.isOptimized = false) ∧
      g.consumers e.member = [e.owner] ∧ ∀ e' ∈ g.sharing.edges, e'.owner ≠ e.member
  /-- No node lies in two buffers. -/
  once : (g.sharing.edges.map (·.member)).Nodup
  /-- From member to owner there is no way round, -/
  acyclic : ∀ id, ¬ TransGen g.LiesIn id id
  /-- and it ends at a node that has its own buffer. -/
  rooted : ∀ id, ∃ root, ReflTransGen g.LiesIn id root ∧ (∀ owner, ¬ g.LiesIn root owner) ∧
    ∀ into, ¬ g.AliasOf root into

/-- An execution resolves the shapes and rechecks every decision. -/
def Revalidates (g h : Graph) : Prop :=
  ∃ tensors resolved values report, g.resolve tensors = (resolved, .ok values) ∧
    resolved.recheck .standard = (h, .ok report)

namespace Linked

variable {owner member index axis : Nat} {offset extent : Dim}

/-- Who writes a slice hands out nothing itself. -/
theorem writer_owns_nothing (k : g.Linked) (hs : g.Sound)
    (he : ⟨owner, member, .slice index axis offset extent⟩ ∈ g.sharing.edges) {e' : SharingEdge}
    (he' : e' ∈ g.sharing.edges) : e'.owner ≠ member := by
  rintro rfl
  obtain ⟨o, m, _ | _⟩ := e'
  · obtain ⟨-, h₂, h₃⟩ := k.view he'
    obtain ⟨n, hn, -⟩ := Result.bind_eq_ok.1 h₂
    have hn := get_eq_ok.1 hn
    have hm : m = owner :=
      (hs.feeds_iff_of_consumers (k.writer he).2.1).1 (.of_input hn ((input_eq_ok hn).1 h₂))
    exact h₃ axis (hm ▸ (k.owner he).2.1)
  · exact k.not_optimized he (k.owner he').1

/-- The only slice edge of an index, where there is one. -/
theorem filter_index (k : g.Linked)
    (he : ⟨owner, member, .slice index axis offset extent⟩ ∈ g.sharing.edges) :
    g.sharing.edges.filter (fun e => e.owner == owner && e.placement.index? == some index) =
      [⟨owner, member, .slice index axis offset extent⟩] := by
  have hnodup : (g.sharing.edges.filter
      fun e => e.owner == owner && e.placement.index? == some index).Nodup :=
    (List.Nodup.of_map _ k.once).filter _
  refine List.perm_singleton.1 ((List.perm_ext_iff_of_nodup hnodup (List.nodup_singleton _)).2 ?_)
  intro e
  simp only [List.mem_filter, Bool.and_eq_true, beq_iff_eq, List.mem_singleton]
  constructor
  · rintro ⟨he', rfl, hi⟩
    obtain ⟨o, m, _ | ⟨i, a, b, x⟩⟩ := e
    · cases hi
    · obtain rfl := Option.some.inj hi
      refine k.once.eq he' he ?_
      exact Except.ok.inj ((k.owner he').2.2.symm.trans (k.owner he).2.2)
  · rintro rfl
    exact ⟨he, rfl, rfl⟩

theorem sliced (k : g.Linked) (hp : g.PlacedAt id) {n : Node} (hn : g.node? id = some n)
    {axis : Nat} (hall : ∀ i m, g.input id i = .ok m → ∃ before extent,
      ⟨id, m, .slice i axis before extent⟩ ∈ g.sharing.edges) : g.Sliced id n axis := by
  constructor
  · intro i m hm
    obtain ⟨b, x, he⟩ := hall i m ((input_eq_ok hn).2 hm)
    obtain ⟨n', extents, hn', hex, hx, hb⟩ := hp _ _ _ _ _ he
    obtain rfl := Option.some.inj (hn.symm.trans hn')
    refine ⟨extents.take i, b, x, List.forall₂_take i hex, hb, ?_, k.filter_index he⟩
    obtain ⟨hi, hm'⟩ := List.getElem?_eq_some_iff.1 hm
    obtain ⟨hi', hx'⟩ := List.getElem?_eq_some_iff.1 hx
    have := hex.get hi hi'
    simpa only [List.get_eq_getElem, hm', hx'] using this
  · rintro ⟨o, m, _ | ⟨j, a, b, x⟩⟩ he rfl i hi
    · cases hi
    · obtain rfl := Option.some.inj hi
      have hin := (input_eq_ok hn).1 (k.owner he).2.2
      exact (List.getElem?_eq_some_iff.1 hin).1

theorem agrees (k : g.Linked) (hs : g.Sound) (hp : ∀ c, g.contains c = true → g.PlacedAt c) :
    g.Agrees where
  view_iff := by
    intro id
    constructor
    · rintro ⟨into, ha⟩
      obtain ⟨e, he, h₁, -, h₂⟩ := k.liesIn_of_aliasOf ha
      exact ⟨e, he, h₁, h₂⟩
    · rintro ⟨⟨o, m, _ | _⟩, he, rfl, hv⟩
      · obtain ⟨h₁, h₂, -⟩ := k.view he
        refine ⟨o, ?_, _, h₁⟩
        rintro rfl
        exact hs.input_ne h₂
      · cases hv
  view := by
    rintro ⟨o, m, p⟩ he off rfl
    obtain ⟨h₁, h₂, -⟩ := k.view he
    exact ⟨h₁, h₂⟩
  inPlace_iff := by
    intro id
    constructor
    · rintro ⟨off, hst⟩
      obtain ⟨-, axis, ⟨n, hn, hop⟩, hall⟩ := k.inPlace_of_self hs hst
      exact ⟨n, axis, hn, hop, k.sliced (hp id (contains_iff.2 ⟨n, hn⟩)) hn fun _ _ => hall⟩
    · rintro ⟨n, axis, hn, hop, hsl⟩
      have htakes := hs.takes hn
      rw [hop] at htakes
      have hpos : 1 ≤ n.inputs.length := by simpa [Operation.takes] using htakes
      obtain ⟨earlier, b, x, -, -, -, hf⟩ := hsl.slice 0 _ (List.getElem?_eq_getElem hpos)
      have he := List.mem_of_mem_filter (hf ▸ List.mem_singleton_self _)
      exact ⟨0, (k.owner he).1⟩
  writer := by
    rintro ⟨o, m, _ | _⟩ he hsl
    · cases hsl
    · obtain ⟨h₁, h₂, -⟩ := k.writer he
      exact ⟨h₁, h₂, fun e' he' => k.writer_owns_nothing hs he he'⟩
  once := k.once
  acyclic := fun _ => k.acyclic hs
  rooted := k.rooted hs

end Linked

/-- Resolving a graph and rechecking it keeps its states linked to its edges and places every
slice anew. -/
theorem Linked.revalidates (k : g.Linked) (hs : g.Sound) (hr : g.Revalidates h) :
    h.Sound ∧ h.Linked ∧ ∀ c, h.contains c = true → h.PlacedAt c := by
  obtain ⟨tensors, resolved, values, report, hres, hrec⟩ := hr
  have r := hs.relaid_resolve tensors
  rw [hres] at r
  have hs' := r.wiring.sound hs
  obtain ⟨h₁, h₂, h₃⟩ := rechecking_recheck hs' (k.congr r.wiring r.state r.sharing) hrec
  exact ⟨h₂.sound hs', h₁, h₃⟩

/-- After fusing, and after any number of executions from there, states and edges agree. -/
theorem agrees_of_revalidates (hr : g.Reachable)
    (hst : ∀ id n, g.node? id = some n → n.state = .unanalyzed) (he : g.sharing.edges = [])
    (config : BuildConfig)
    (hf : ReflTransGen Revalidates ((Pass.fusing .standard).run config g).1 h) : h.Agrees := by
  suffices h.Sound ∧ h.Linked ∧ ∀ c, h.contains c = true → h.PlacedAt c from
    this.2.1.agrees this.1 this.2.2
  induction hf with
  | refl =>
    obtain ⟨done, k⟩ := fusing_fuseAlong hr.sound (fun hn => hst _ _ hn) he
    exact ⟨k.wiring.symm.sound hr.sound, k.linked, fun c _ => k.placed c⟩
  | tail _ hrev ih => exact ih.2.1.revalidates ih.1 hrev

theorem Reachable.inferAlong (hr : g.Reachable) (t : InferenceTable) (values : InputValues)
    (ids : List NodeId) : (t.inferAlong values ids g).1.Reachable := by
  induction ids generalizing g with
  | nil => exact hr
  | cons id ids ih =>
    simp only [InferenceTable.inferAlong]
    split
    · exact hr
    · split
      · exact ih hr
      · exact ih (hr.setLayout id _)

/-- The sample with inferred layouts. -/
def inferredSample : Graph := (InferenceTable.standard.inferGraph [] sample).1

/-- The sample fused, and executed on a tensor of zeros up to the kernels. -/
def recheckedSample : Graph :=
  ((((Pass.fusing .standard).run .standard inferredSample).1.resolve
    [(0, ⟨[2, 2], .f32, List.replicate 16 0⟩)]).1.recheck .standard).1

theorem agrees_recheckedSample : recheckedSample.Agrees := by
  refine agrees_of_revalidates (g := inferredSample) (built_sample.reachable.inferAlong ..) ?_ rfl
    .standard (.single ⟨[(0, ⟨[2, 2], .f32, List.replicate 16 0⟩)], _, _, _, rfl, rfl⟩)
  exact fun id n hn => (built_sample.fresh.relaid (relaid_inferAlong ..)).state hn

end BufferFusion.Graph
