import BufferFusion.Proofs.Graph.Listed
import BufferFusion.Proofs.Result
import BufferFusion.Proofs.Sharing.Edges

/-!
# Edits

The calls that change a graph, in any order and with any arguments. However a call ends, the parts
of the graph (input lists, data edges, the index of names, marked nodes and sharing edges) still say
the same about it.
-/
namespace BufferFusion

/-- A call that changes a graph. -/
inductive Edit where
  | add (name : String) (op : Operation) (inputs : List NodeId)
  | split (name : String) (input : NodeId) (axis : Nat) (sizes : List Nat)
  | mark (id : NodeId)
  | replace (old new : NodeId) (rewire : Bool)
  | setLayout (id : NodeId) (layout : Layout)
  | setState (id : NodeId) (state : FusionState)
  | setAssumption (id : NodeId) (assumption : Option Assumption)
  | propose (edges : List SharingEdge)
  | refresh (updates : List SharingEdge)
  | detach (id : NodeId)
  | removeEdges (id : NodeId)

namespace Graph

variable {g g' : Graph} {old new id : NodeId}

/-- What a call leaves that either succeeds or changes nothing. -/
def settle (g : Graph) : Result Graph → Graph × Result Unit
  | .ok g' => (g', .ok ())
  | .error e => (g, .error e)

/-- Sets an annotation of a node that has to be there. -/
def annotate (g : Graph) (id : NodeId) (f : Graph → Graph) : Result Graph := do
  let _ ← g.get id
  return f g

/-- What a call leaves, and how it ended. Only a split that fails can have changed something: the
windows added before the failure stay. -/
def edit (g : Graph) : Edit → Graph × Result Unit
  | .add name op inputs => g.settle (Prod.fst <$> g.add name op inputs)
  | .split name input axis sizes =>
    ((g.split name input axis sizes).1, (fun _ => ()) <$> (g.split name input axis sizes).2)
  | .mark id => g.settle (g.mark id)
  | .replace old new rewire => g.settle (g.replace old new rewire)
  | .setLayout id l => g.settle (g.annotate id (·.setLayout id l))
  | .setState id s => g.settle (g.annotate id (·.setState id s))
  | .setAssumption id a => g.settle (g.annotate id (·.setAssumption id a))
  | .propose edges => g.settle (g.propose edges)
  | .refresh updates => (g.setSharing (g.sharing.refresh updates).1, .ok ())
  | .detach id => (g.setSharing (g.sharing.detach id), .ok ())
  | .removeEdges id => (g.setSharing (g.sharing.removeNode id), .ok ())

/-- What a sequence of calls makes of the empty graph. -/
def edited (edits : List Edit) : Graph := edits.foldl (fun g e => (g.edit e).1) empty

/-- What holds after a call if it holds before, and after the call where it succeeds. -/
theorem settle_cases {P : Graph → Prop} {r : Result Graph} (hg : P g)
    (hr : ∀ g', r = .ok g' → P g') : P (g.settle r).1 := by
  cases r with
  | ok g' => exact hr g' rfl
  | error e => exact hg

theorem annotate_eq_ok {f : Graph → Graph} (h : g.annotate id f = .ok g') : g' = f g := by
  obtain ⟨_, -, hok⟩ := Result.bind_eq_ok.1 h
  exact (Except.ok.inj hok).symm

theorem add_eq_ok {name : String} {op : Operation} {inputs : List NodeId}
    (h : g.add name op inputs = .ok (g', id)) :
    g' = g.place name op inputs ∧ id = g.nextId ∧ g.names.lookup name = none := by
  obtain ⟨_, hcheck, hok⟩ := Result.bind_eq_ok.1 h
  obtain ⟨rfl, rfl⟩ := Prod.mk.inj (Except.ok.inj hok)
  refine ⟨rfl, rfl, ?_⟩
  simp only [checkNode] at hcheck
  split at hcheck
  · cases hcheck
  · next hname => simpa only [Bool.not_eq_true, Option.isSome_eq_false_iff, Option.isNone_iff_eq_none] using hname

/-! ### Ids and what refers to them -/

/-- Besides the lists of a graph, its sharing edges name nodes that are there. -/
structure Indexed (g : Graph) : Prop extends g.Listed where
  shared : ∀ e ∈ g.sharing.edges, g.contains e.owner = true ∧ g.contains e.member = true

theorem indexed_empty : empty.Indexed := ⟨listed_empty, by simp [empty, Sharing.empty]⟩

namespace Indexed

theorem place (k : g.Indexed) (hs : g.Sound) (name : String) (op : Operation)
    (inputs : List NodeId) : (g.place name op inputs).Indexed := by
  refine ⟨k.toListed.place hs name op inputs, fun e he => ?_⟩
  obtain ⟨ho, hm⟩ := k.shared e he
  exact ⟨contains_place hs ho, contains_place hs hm⟩

theorem add (k : g.Indexed) (hs : g.Sound) {name : String} {op : Operation} {inputs : List NodeId}
    (h : g.add name op inputs = .ok (g', id)) : g'.Indexed := by
  obtain ⟨rfl, -⟩ := add_eq_ok h
  exact k.place hs name op inputs

theorem addWindows (k : g.Indexed) (hs : g.Sound) {split : String} {input : NodeId}
    {shape : List Nat} {axis i start : Nat} {sizes : List Nat} :
    (g.addWindows split input shape axis i start sizes).1.Indexed := by
  induction sizes generalizing g i start with
  | nil => exact k
  | cons size sizes ih =>
    simp only [Graph.addWindows]
    split
    · exact k
    · next hadd => exact ih (k.add hs hadd) (hs.add hadd)

theorem split (k : g.Indexed) (hs : g.Sound) (name : String) (input : NodeId) (axis : Nat)
    (sizes : List Nat) : (g.split name input axis sizes).1.Indexed := by
  simp only [Graph.split]
  split
  · exact k
  · exact k.addWindows hs

theorem mark (k : g.Indexed) (h : g.mark id = .ok g') : g'.Indexed := by
  refine ⟨k.toListed.mark h, ?_⟩
  obtain ⟨_, -, hok⟩ := Result.bind_eq_ok.1 h
  obtain rfl := Except.ok.inj hok
  split
  · exact k.shared
  · exact k.shared

/-- A change of annotations and of sharing edges between nodes that are there. -/
theorem congr (k : g.Indexed) (w : g.SameWiring g')
    (hshared : ∀ e ∈ g'.sharing.edges, g.contains e.owner = true ∧ g.contains e.member = true) :
    g'.Indexed := by
  refine ⟨k.toListed.congr w, fun e he => ?_⟩
  rw [← w.contains_eq, ← w.contains_eq]
  exact hshared e he

theorem replace (k : g.Indexed) (hs : g.Sound) {rewire : Bool}
    (hr : g.replace old new rewire = .ok g') : g'.Indexed := by
  have hrep := hs.replaced hr
  refine ⟨k.toListed.replace hs hr, fun e he => ?_⟩
  rw [hrep.sharing, Sharing.mem_removeNode] at he
  obtain ⟨ho, hm⟩ := k.shared e he.1
  have htouch := he.2
  simp only [SharingEdge.touches, Bool.or_eq_false_iff, beq_eq_false_iff_ne] at htouch
  exact ⟨hrep.contains_iff.2 ⟨htouch.1, ho⟩, hrep.contains_iff.2 ⟨htouch.2, hm⟩⟩

end Indexed

/-! ### Runs of calls -/

/-- A proposal that is accepted is about nodes that are there. -/
theorem live_of_checkMembers {placed : List NodeId} {es : List SharingEdge}
    (h : Sharing.checkMembers g placed es = .ok ()) :
    ∀ e ∈ es, g.contains e.owner = true ∧ g.contains e.member = true := by
  induction es generalizing placed with
  | nil => simp
  | cons e es ih =>
    obtain ⟨n, hn, h⟩ := Result.bind_eq_ok.1 h
    obtain ⟨m, hm, h⟩ := Result.bind_eq_ok.1 h
    split at h
    · cases h
    split at h
    · cases h
    exact List.forall_mem_cons.2 ⟨⟨contains_iff.2 ⟨n, get_eq_ok.1 hn⟩,
      contains_iff.2 ⟨m, get_eq_ok.1 hm⟩⟩, ih h⟩

theorem live_of_ends {s : Sharing} {es : List SharingEdge}
    (h : s.edges.map (·.ends) = es.map (·.ends))
    (hlive : ∀ e ∈ es, g.contains e.owner = true ∧ g.contains e.member = true) :
    ∀ e ∈ s.edges, g.contains e.owner = true ∧ g.contains e.member = true := by
  intro e he
  have : e.ends ∈ es.map (·.ends) := h ▸ List.mem_map_of_mem he
  obtain ⟨e', he', hends⟩ := List.mem_map.1 this
  obtain ⟨ho, hm⟩ := Prod.mk.inj hends
  rw [← ho, ← hm]
  exact hlive e' he'

/-- A call keeps a graph sound. -/
theorem Sound.edit (hs : g.Sound) (e : Edit) : (g.edit e).1.Sound := by
  cases e with
  | add name op inputs =>
    refine settle_cases hs fun g' h => ?_
    obtain ⟨⟨h', id⟩, hadd, rfl⟩ := Result.map_eq_ok.1 h
    exact hs.add hadd
  | split name input axis sizes => exact hs.split name input axis sizes
  | mark id => exact settle_cases hs fun g' h => hs.mark h
  | replace old new rewire => exact settle_cases hs fun g' h => hs.replace h
  | setLayout id l =>
    exact settle_cases hs fun g' h =>
      annotate_eq_ok h ▸ (sameWiring_setLayout g id l).symm.sound hs
  | setState id s =>
    exact settle_cases hs fun g' h =>
      annotate_eq_ok h ▸ (sameWiring_setState g id s).symm.sound hs
  | setAssumption id a =>
    exact settle_cases hs fun g' h =>
      annotate_eq_ok h ▸ (sameWiring_setAssumption g id a).symm.sound hs
  | propose es =>
    exact settle_cases hs fun g' h =>
      (Sharing.propose_eq_ok h).1 ▸ (sameWiring_setSharing g _).symm.sound hs
  | refresh us => exact (sameWiring_setSharing g _).symm.sound hs
  | detach id => exact (sameWiring_setSharing g _).symm.sound hs
  | removeEdges id => exact (sameWiring_setSharing g _).symm.sound hs

/-- A call keeps what refers to nodes in order. -/
theorem Indexed.edit (k : g.Indexed) (hs : g.Sound) (e : Edit) : (g.edit e).1.Indexed := by
  cases e with
  | add name op inputs =>
    refine settle_cases k fun g' h => ?_
    obtain ⟨⟨h', id⟩, hadd, rfl⟩ := Result.map_eq_ok.1 h
    exact k.add hs hadd
  | split name input axis sizes => exact k.split hs name input axis sizes
  | mark id => exact settle_cases k fun g' h => k.mark h
  | replace old new rewire => exact settle_cases k fun g' h => k.replace hs h
  | setLayout id l =>
    exact settle_cases k fun g' h =>
      annotate_eq_ok h ▸ k.congr (sameWiring_setLayout g id l).symm k.shared
  | setState id s =>
    exact settle_cases k fun g' h =>
      annotate_eq_ok h ▸ k.congr (sameWiring_setState g id s).symm k.shared
  | setAssumption id a =>
    exact settle_cases k fun g' h =>
      annotate_eq_ok h ▸ k.congr (sameWiring_setAssumption g id a).symm k.shared
  | propose es =>
    refine settle_cases k fun g' h => ?_
    obtain ⟨_, hv, -⟩ := Result.bind_eq_ok.1 h
    obtain ⟨_, hm, -⟩ := Result.bind_eq_ok.1 hv
    rw [(Sharing.propose_eq_ok h).1]
    refine k.congr (sameWiring_setSharing g _).symm ?_
    simpa using List.forall_mem_append.2 ⟨k.shared, live_of_checkMembers hm⟩
  | refresh us =>
    exact k.congr (sameWiring_setSharing g _).symm
      (live_of_ends (Sharing.refresh_ends g.sharing us) k.shared)
  | detach id =>
    exact k.congr (sameWiring_setSharing g _).symm
      fun e he => k.shared e (Sharing.mem_detach.1 he).1
  | removeEdges id =>
    exact k.congr (sameWiring_setSharing g _).symm
      fun e he => k.shared e (Sharing.mem_removeNode.1 he).1

/-- What every call keeps, every run has. -/
theorem edited_induction {P : Graph → Prop} {edits : List Edit} (hempty : P empty)
    (step : ∀ g, ∀ e ∈ edits, P g → P (g.edit e).1) : P (edited edits) :=
  List.foldlRecOn edits _ hempty fun g hg e he => step g e he hg

theorem sound_edited (edits : List Edit) : (edited edits).Sound :=
  edited_induction sound_empty fun _ e _ hs => hs.edit e

theorem indexed_edited (edits : List Edit) : (edited edits).Indexed :=
  (edited_induction (P := fun g => g.Sound ∧ g.Indexed) ⟨sound_empty, indexed_empty⟩
    fun _ e _ h => ⟨h.1.edit e, h.2.edit h.1 e⟩).2

/-! ### One graph, told twice -/

/-- The parts of a graph say the same: the index has the name of each node and no other, nodes know
their ids, every id that is named belongs to a node, and the data edges are those of the input
lists, each as often. -/
structure Represented (g : Graph) : Prop where
  lookup_iff : ∀ {name id}, g.names.lookup name = some id ↔
    ∃ n, g.node? id = some n ∧ n.name = name
  id_eq : ∀ {id n}, g.node? id = some n → n.id = id
  inputs_live : ∀ {id n}, g.node? id = some n → ∀ p ∈ n.inputs, g.contains p = true
  marked_live : ∀ id ∈ g.marked, g.contains id = true
  marked_nodup : g.marked.Nodup
  shared_live : ∀ e ∈ g.sharing.edges, g.contains e.owner = true ∧ g.contains e.member = true
  edges_perm : g.edges.Perm g.dataEdges

theorem Indexed.represented (k : g.Indexed) (hs : g.Sound) : g.Represented where
  lookup_iff := k.lookup_iff hs
  id_eq := hs.id_eq
  inputs_live := fun hn _ hp => hs.live ⟨_, hn, hp⟩
  marked_live := fun _ => hs.marked
  marked_nodup := k.marked_nodup
  shared_live := k.shared
  edges_perm := k.edges_perm hs

/-- Whatever calls are made, successful or not: the parts of the graph say the same. Ids that are
vacant and taken again make no difference. -/
theorem represented_edited (edits : List Edit) : (edited edits).Represented :=
  (indexed_edited edits).represented (sound_edited edits)

-- a reorder is replaced in both slots of its consumer, and the next one gets its id; the last call
-- would close a cycle
example : (edited [.add "x" (.input (.plain (.ofSizes [2]) .f32)) [],
    .add "r" (.reorder .bfyx .f32) [0], .add "c" (.concatenation 0) [1, 1], .replace 1 0 true,
    .add "r" (.reorder .bfyx .f32) [0], .replace 0 1 true]).edges =
      [⟨0, 1, 0⟩, ⟨0, 2, 1⟩, ⟨0, 2, 0⟩] := by decide

end Graph
end BufferFusion
