import Mathlib.Data.List.Perm.Basic
import BufferFusion.Proofs.Graph.Built

/-!
# Listed once

A graph stores its topology twice, in the input lists and as data edges, next to an index of names
and the marked nodes. None of these lists repeats itself, so the data edges are those of the input
lists, each as often, and the index has the name of each node and no other.
-/
namespace BufferFusion.Graph

variable {g g' : Graph} {old new id : NodeId}

/-- Names belong to nodes that are there, and no data edge or marked node is listed twice. -/
structure Listed (g : Graph) : Prop where
  entry : ∀ {name id}, (name, id) ∈ g.names → ∃ n, g.node? id = some n ∧ n.name = name
  edges_nodup : g.edges.Nodup
  marked_nodup : g.marked.Nodup

theorem listed_empty : empty.Listed := ⟨by simp [empty], List.nodup_nil, List.nodup_nil⟩

theorem inputEdges_nodup (id : NodeId) (inputs : List NodeId) : (inputEdges id inputs).Nodup := by
  rw [inputEdges, List.nodup_iff_getElem?_ne_getElem?]
  intro i j hij hj he
  simp only [List.length_mapIdx] at hj
  rw [List.getElem?_mapIdx, List.getElem?_mapIdx, List.getElem?_eq_getElem hj,
    List.getElem?_eq_getElem (hij.trans hj)] at he
  have := congrArg (Option.map (·.slot)) he
  simp only [Option.map_some, Option.some.injEq] at this
  omega

/-! ### Redirected edges -/

theorem rewiredEdges_nodup (g : Graph) (old new consumer : NodeId) :
    (g.rewiredEdges old new consumer).Nodup := by
  rw [rewiredEdges]
  split
  · exact List.nodup_nil
  · next n _ =>
    refine ((inputEdges_nodup consumer n.inputs).filter _).map_on fun e he e' he' heq => ?_
    -- both come from `old`, so what is changed is the same in both
    obtain ⟨-, hp⟩ := List.mem_filter.1 he
    obtain ⟨-, hp'⟩ := List.mem_filter.1 he'
    rw [beq_iff_eq] at hp hp'
    obtain ⟨p, c, s⟩ := e
    obtain ⟨p', c', s'⟩ := e'
    simp_all

/-- Each consumer gets its edges once, if it is redirected once: what it gets in a slot is not what
it has there. -/
theorem nodup_edges_rewired (hne : old ≠ new) {cs : List NodeId} (hcs : cs.Nodup)
    (hedges : g.edges.Nodup)
    (hslot : ∀ e ∈ g.edges, e.consumer ∈ cs →
      ∃ n, g.node? e.consumer = some n ∧ n.inputs[e.slot]? = some e.producer) :
    (cs.foldl (fun h c => h.rewireConsumer old new c) g).edges.Nodup := by
  induction cs generalizing g with
  | nil => exact hedges
  | cons c cs ih =>
    obtain ⟨hc, hcs⟩ := List.nodup_cons.1 hcs
    refine ih hcs ?_ ?_
    · refine List.nodup_append.2
        ⟨List.nodup_reverse.2 (rewiredEdges_nodup g old new c), hedges, ?_⟩
      rintro e he _ he' rfl
      obtain ⟨hp, rfl, n, hn, hold⟩ := mem_rewiredEdges.1 (List.mem_reverse.1 he)
      obtain ⟨m, hm, hs⟩ := hslot e he' List.mem_cons_self
      obtain rfl := Option.some.inj (hn.symm.trans hm)
      exact hne ((Option.some.inj (hold.symm.trans hs)).trans hp)
    · intro e he hec
      have hce : c ≠ e.consumer := fun he => hc (he ▸ hec)
      rw [node?_rewireConsumer, if_neg hce]
      rcases List.mem_append.1 he with he | he
      · exact absurd (mem_rewiredEdges.1 (List.mem_reverse.1 he)).2.1.symm hce
      · exact hslot e he (List.mem_cons_of_mem _ hec)

theorem consumers_nodup (g : Graph) (id : NodeId) : (g.consumers id).Nodup :=
  (Ascending.pairwise_ofList _).imp Nat.ne_of_lt

/-! ### What calls keep -/

namespace Listed

theorem place (k : g.Listed) (hs : g.Sound) (name : String) (op : Operation)
    (inputs : List NodeId) : (g.place name op inputs).Listed := by
  refine ⟨?_, ?_, k.marked_nodup⟩
  · intro name' x hx
    rcases List.mem_cons.1 hx with he | hx
    · obtain ⟨rfl, rfl⟩ := Prod.mk.inj he
      exact ⟨_, (node_place_iff hs).2 (.inl ⟨rfl, rfl⟩), rfl⟩
    · obtain ⟨n, hn, hname⟩ := k.entry hx
      exact ⟨n, node_place hs hn, hname⟩
  · refine List.nodup_append.2
      ⟨List.nodup_reverse.2 (inputEdges_nodup _ _), k.edges_nodup, ?_⟩
    rintro e he _ he' rfl
    obtain ⟨hc, -⟩ := mem_inputEdges.1 (List.mem_reverse.1 he)
    obtain ⟨n, hn, -⟩ := hs.edge_iff.1 he'
    exact ne_nextId hs hn hc

theorem add (k : g.Listed) (hs : g.Sound) {name : String} {op : Operation} {inputs : List NodeId}
    (h : g.add name op inputs = .ok (g', id)) : g'.Listed := by
  obtain ⟨_, -, hok⟩ := Result.bind_eq_ok.1 h
  obtain ⟨rfl, -⟩ := Prod.mk.inj (Except.ok.inj hok)
  exact k.place hs name op inputs

theorem addWindows (k : g.Listed) (hs : g.Sound) {split : String} {input : NodeId}
    {shape : List Nat} {axis i start : Nat} {sizes : List Nat} :
    (g.addWindows split input shape axis i start sizes).1.Listed := by
  induction sizes generalizing g i start with
  | nil => exact k
  | cons size sizes ih =>
    simp only [Graph.addWindows]
    split
    · exact k
    · next hadd => exact ih (k.add hs hadd) (hs.add hadd)

theorem split (k : g.Listed) (hs : g.Sound) (name : String) (input : NodeId) (axis : Nat)
    (sizes : List Nat) : (g.split name input axis sizes).1.Listed := by
  simp only [Graph.split]
  split
  · exact k
  · exact k.addWindows hs

theorem mark (k : g.Listed) (h : g.mark id = .ok g') : g'.Listed := by
  obtain ⟨_, -, hok⟩ := Result.bind_eq_ok.1 h
  obtain rfl := Except.ok.inj hok
  split
  · exact k
  · next hx =>
    refine { k with marked_nodup := ?_ }
    exact List.nodup_append_comm.1 (List.nodup_cons.2 ⟨by simpa using hx, k.marked_nodup⟩)

theorem replace (k : g.Listed) (hs : g.Sound) {rewire : Bool}
    (hr : g.replace old new rewire = .ok g') : g'.Listed := by
  have hrep := hs.replaced hr
  obtain ⟨_, -, hok⟩ := Result.bind_eq_ok.1 hr
  refine ⟨?_, ?_, ?_⟩
  · intro name x hx
    rw [hrep.names, List.mem_filter, bne_iff_ne] at hx
    obtain ⟨n, hn, hname⟩ := k.entry hx.1
    exact ⟨n.redirect old new, hrep.node_redirect hx.2 hn, hname⟩
  · obtain rfl := Except.ok.inj hok
    refine List.Nodup.filter _ ?_
    exact nodup_edges_rewired hrep.ne (consumers_nodup g old) k.edges_nodup
      fun e he _ => hs.edge_iff.1 he
  · rw [hrep.marked]
    exact eraseDups_nodup _

/-- A change of annotations. -/
theorem congr (k : g.Listed) (w : g.SameWiring g') : g'.Listed where
  entry := by
    intro name x hx
    obtain ⟨n, hn, hname⟩ := k.entry (w.names ▸ hx)
    obtain ⟨m, hm, -, hname', -⟩ := w.node hn
    exact ⟨m, hm, hname'.trans hname⟩
  edges_nodup := w.edges ▸ k.edges_nodup
  marked_nodup := w.marked ▸ k.marked_nodup

end Listed

theorem Reachable.listed (h : g.Reachable) : g.Listed := by
  induction h with
  | empty => exact listed_empty
  | add hg hadd ih => exact ih.add hg.sound hadd
  | split name input axis sizes hg ih => exact ih.split hg.sound name input axis sizes
  | mark _ hm ih => exact ih.mark hm
  | replace hg hr ih => exact ih.replace hg.sound hr
  | setLayout id l _ ih => exact ih.congr (sameWiring_setLayout _ id l).symm
  | setState id s _ ih => exact ih.congr (sameWiring_setState _ id s).symm
  | setAssumption id a _ ih => exact ih.congr (sameWiring_setAssumption _ id a).symm
  | setSharing s _ ih => exact ih.congr (sameWiring_setSharing _ s).symm

/-! ### One topology, told twice -/

theorem Sound.mem_dataEdges (hs : g.Sound) {e : DataEdge} : e ∈ g.dataEdges ↔ e ∈ g.edges := by
  obtain ⟨p, c, s⟩ := e
  rw [hs.edge_iff, dataEdges, List.mem_flatMap]
  constructor
  · rintro ⟨n, hn, he⟩
    obtain ⟨rfl, hp⟩ := mem_inputEdges.1 he
    exact ⟨n, hs.node_of_mem hn, hp⟩
  · rintro ⟨n, hn, hp⟩
    exact ⟨n, mem_nodes.2 ⟨c, hn⟩, mem_inputEdges.2 ⟨(hs.id_eq hn).symm, hp⟩⟩

/-- Nodes of different places have different ids. -/
theorem Sound.nodes_pairwise (hs : g.Sound) : g.nodes.Pairwise fun n m => n.id ≠ m.id := by
  refine List.pairwise_filterMap.2 (List.pairwise_iff_getElem.2 ?_)
  intro i j hi hj hij n hn m hm heq
  have hid : ∀ {i} (h : i < g.slots.length) {n : Node}, g.slots[i] = some n → n.id = i :=
    fun h n hn => hs.id_eq (node?_eq_some.2 ((List.getElem?_eq_getElem h).trans (congrArg some hn)))
  rw [hid hi hn, hid hj hm] at heq
  exact Nat.ne_of_lt hij heq

theorem Sound.dataEdges_nodup (hs : g.Sound) : g.dataEdges.Nodup := by
  refine List.nodup_flatMap.2 ⟨fun n _ => inputEdges_nodup n.id n.inputs, ?_⟩
  refine hs.nodes_pairwise.imp fun hne e he he' => hne ?_
  rw [← (mem_inputEdges.1 he).1, ← (mem_inputEdges.1 he').1]

theorem Listed.edges_perm (k : g.Listed) (hs : g.Sound) : g.edges.Perm g.dataEdges :=
  (List.perm_ext_iff_of_nodup k.edges_nodup hs.dataEdges_nodup).2 fun _ => hs.mem_dataEdges.symm

theorem Listed.lookup_iff (k : g.Listed) (hs : g.Sound) {name : String} :
    g.names.lookup name = some id ↔ ∃ n, g.node? id = some n ∧ n.name = name := by
  constructor
  · intro h
    obtain ⟨before, after, hnames, -⟩ := List.lookup_eq_some_iff.1 h
    exact k.entry (hnames ▸ List.mem_append_right _ List.mem_cons_self)
  · rintro ⟨n, hn, rfl⟩
    exact hs.named hn

end BufferFusion.Graph
