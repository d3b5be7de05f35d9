import Mathlib.Data.List.Pairwise
import BufferFusion.Proofs.Graph.Edits
import BufferFusion.Proofs.Sharing.Groups
import BufferFusion.Proofs.Sharing.Validate

/-!
# Ordered writers

A proposal is checked in the buffers that it touches only. That is enough: elsewhere the writers
and their regions are what they were, a node that is settled as optimized stops writing, and paths
are never lost while a graph grows. So in a graph that was only grown, any two writers of one
buffer that overlap are ordered.
-/
namespace BufferFusion

open Relation

/-- Who wins does not depend on who is asked first, as long as both have an answer. -/
theorem Region.overlaps_comm {r r' : Region} {b : Bool} (h : r.overlaps r' = .ok b)
    (h' : r'.overlaps r = .ok true) : b = true := by
  have hmeet : ∀ {s n t m : Nat} {b}, meet s n t m = .ok b → meet t m s n = .ok true →
      b = true := by
    intro s n t m b hb hb'
    obtain ⟨u, hu, hb⟩ := Result.bind_eq_ok.1 hb
    obtain ⟨v, hv, hb'⟩ := Result.bind_eq_ok.1 hb'
    split at hb'
    next hts =>
      obtain ⟨u', hu', hb'⟩ := Result.bind_eq_ok.1 hb'
      obtain rfl := Except.ok.inj (hu.symm.trans hu')
      have hsu : s < u := by simpa [pure, Except.pure] using hb'
      rw [if_pos hsu] at hb
      obtain ⟨v', hv', hb⟩ := Result.bind_eq_ok.1 hb
      obtain rfl := Except.ok.inj (hv.symm.trans hv')
      simpa [pure, Except.pure, hts, eq_comm] using hb
    next => simp [pure, Except.pure] at hb'
  cases r with
  | full => exact (Except.ok.inj h).symm
  | slice o i a s n =>
    cases r' with
    | full => exact (Except.ok.inj h).symm
    | slice p j c t m =>
      simp only [overlaps] at h h'
      by_cases hop : o = p
      · rw [if_pos hop] at h
        rw [if_pos hop.symm] at h'
        have hji := Except.ok.inj h'
        rw [beq_iff_eq] at hji
        rw [← Except.ok.inj h, hji, beq_self_eq_true]
      · rw [if_neg hop] at h
        rw [if_neg (Ne.symm hop)] at h'
        cases s <;> cases n <;> cases t <;> cases m
        all_goals try exact (Except.ok.inj h).symm
        by_cases hac : a = c
        · simp only [if_pos hac] at h
          simp only [if_pos hac.symm] at h'
          exact hmeet h h'
        · simp only [if_neg hac] at h
          exact (Except.ok.inj h).symm

namespace Sharing

variable {g g' : Graph} {es old new : List SharingEdge} {ws : List (NodeId × Region)}
  {x y : NodeId}

theorem Connected.end_of_ne (h : Connected es x y) (hne : x ≠ y) :
    ∃ e ∈ es, e.owner = x ∨ e.member = x := by
  obtain rfl | ⟨z, ⟨e, he, h⟩, -⟩ := h.cases_head
  · exact absurd rfl hne
  · exact ⟨e, he, h.imp (·.1) (·.2)⟩

/-- A buffer that no new edge lies in is held together by the old ones. -/
theorem Connected.of_append (h : Connected (old ++ new) x y)
    (hnew : ∀ e ∈ new, ¬ Connected (old ++ new) x e.owner) : Connected old x y := by
  induction h with
  | refl => exact .refl
  | tail hxb hadj ih =>
    obtain ⟨e, he, hends⟩ := hadj
    rcases List.mem_append.1 he with he | he
    · exact ih.tail ⟨e, he, hends⟩
    · refine absurd ?_ (hnew e he)
      rcases hends with ⟨rfl, -⟩ | ⟨ho, hm⟩
      · exact hxb
      · exact hxb.tail ⟨e, List.mem_append_right _ he, .inr ⟨rfl, hm⟩⟩

/-- New edges elsewhere do not change what a node writes. -/
theorem writeRegion_append (hnew : ∀ e ∈ new, e.owner ≠ x ∧ e.member ≠ x) :
    writeRegion g (old ++ new) x = writeRegion g old x := by
  have hsilent : new.any (silences x) = false := by
    simp only [List.any_eq_false, silences]
    intro e he
    split <;> simp [hnew e he]
  have hslice : new.filterMap (sliceRegion? x) = [] := by
    refine List.filterMap_eq_nil_iff.2 fun e he => ?_
    rw [sliceRegion?]
    split
    · rw [if_neg (hnew e he).2]
    · rfl
  rw [writeRegion, writeRegion, List.any_append, hsilent, Bool.or_false, List.filterMap_append,
    hslice, List.append_nil]

/-- What a node writes is known of the node's state alone, given the edges. -/
theorem writeRegion_congr (h : (g'.node? x).any (·.state.isOptimized) =
    (g.node? x).any (·.state.isOptimized)) : writeRegion g' es x = writeRegion g es x := by
  rw [writeRegion, writeRegion, h]

/-- Two writers are ordered where they overlap, whichever is asked first. -/
def OrderedIn (g : Graph) (a b : NodeId × Region) : Prop :=
  a.2.overlaps b.2 = .ok true ∨ b.2.overlaps a.2 = .ok true →
    ReflTransGen g.Feeds a.1 b.1 ∨ ReflTransGen g.Feeds b.1 a.1

theorem OrderedIn.symm {a b : NodeId × Region} (h : OrderedIn g a b) : OrderedIn g b a :=
  fun ho => (h ho.symm).symm

theorem orderedIn_of_checkPair (hs : g.Sound) {a b : NodeId × Region}
    (ha : g.contains a.1 = true) (hb : g.contains b.1 = true)
    (h : checkPair g a b = .ok ()) : OrderedIn g a b := by
  obtain ⟨meets, hmeets, h⟩ := Result.bind_eq_ok.1 h
  intro ho
  have htrue : meets = true := by
    rcases ho with ho | ho
    · exact Except.ok.inj (hmeets.symm.trans ho)
    · exact Region.overlaps_comm hmeets ho
  rw [if_pos htrue] at h
  obtain ⟨path, hpath, h⟩ := Result.bind_eq_ok.1 h
  rw [hs.hasPath_eq ha] at hpath
  obtain rfl := Except.ok.inj hpath
  by_cases hab : g.reaches a.1 b.1 = true
  · exact .inl ((hs.reaches_iff ha).1 hab)
  · rw [if_neg hab] at h
    obtain ⟨path, hpath, h⟩ := Result.bind_eq_ok.1 h
    rw [hs.hasPath_eq hb] at hpath
    obtain rfl := Except.ok.inj hpath
    by_cases hba : g.reaches b.1 a.1 = true
    · exact .inr ((hs.reaches_iff hb).1 hba)
    · rw [if_neg hba] at h
      obtain ⟨_, -, h⟩ := Result.bind_eq_ok.1 h
      obtain ⟨_, -, h⟩ := Result.bind_eq_ok.1 h
      cases h

theorem pairwise_of_checkPairs (h : checkPairs g ws = .ok ()) :
    ws.Pairwise fun a b => checkPair g a b = .ok () := by
  induction ws with
  | nil => exact .nil
  | cons w ws ih =>
    obtain ⟨_, hw, h⟩ := Result.bind_eq_ok.1 h
    exact List.pairwise_cons.2 ⟨Result.forM_eq_ok.1 hw, ih h⟩

/-- Of the writers that a check went through, any two are ordered where they overlap. -/
theorem orderedIn_of_checkPairs (hs : g.Sound) (hlive : ∀ w ∈ ws, g.contains w.1 = true)
    (h : checkPairs g ws = .ok ()) {a b : NodeId × Region} (ha : a ∈ ws) (hb : b ∈ ws)
    (hne : a ≠ b) : OrderedIn g a b := by
  have hpair := (pairwise_of_checkPairs h).imp_of_mem fun {a b} ha hb =>
    orderedIn_of_checkPair hs (hlive a ha) (hlive b hb)
  have : Std.Symm (OrderedIn g) := ⟨fun _ _ => OrderedIn.symm⟩
  exact hpair.forall ha hb hne

end Sharing

open Sharing

namespace Graph

variable {g g' : Graph} {es : List SharingEdge} {x y id : NodeId} {r r' : Region}

/-- Sharing without conflicts: no node is placed in itself or placed twice, edges join nodes that
are there, and where two nodes of one buffer write overlapping regions, a path leads from the one
to the other. -/
structure ConflictFree (g : Graph) : Prop where
  apart : ∀ e ∈ g.sharing.edges, e.owner ≠ e.member
  once : Once g.sharing.edges
  live : ∀ e ∈ g.sharing.edges, g.contains e.owner = true ∧ g.contains e.member = true
  ordered : ∀ {x y r r'}, x ≠ y → Connected g.sharing.edges x y →
    writeRegion g g.sharing.edges x = some r → writeRegion g g.sharing.edges y = some r' →
    r.overlaps r' = .ok true → ReflTransGen g.Feeds x y ∨ ReflTransGen g.Feeds y x

theorem conflictFree_empty : empty.ConflictFree where
  apart := by simp [empty, Sharing.empty]
  once := by simp [empty, Sharing.empty, Once]
  live := by simp [empty, Sharing.empty]
  ordered := by
    intro x y r r' hne hxy
    obtain ⟨e, he, -⟩ := hxy.end_of_ne hne
    simp [empty, Sharing.empty] at he

namespace ConflictFree

theorem live_of_connected (k : g.ConflictFree) (hxy : Connected g.sharing.edges x y)
    (hne : x ≠ y) : g.contains x = true := by
  obtain ⟨e, he, rfl | rfl⟩ := hxy.end_of_ne hne
  · exact (k.live e he).1
  · exact (k.live e he).2

/-- The sharing stays, no node is lost, and nobody writes who did not; data edges only come in
addition. -/
theorem grow (k : g.ConflictFree) (hsharing : g'.sharing = g.sharing)
    (hlive : ∀ {x}, g.contains x = true → g'.contains x = true)
    (hwrite : ∀ {x r}, g.contains x = true → writeRegion g' g.sharing.edges x = some r →
      writeRegion g g.sharing.edges x = some r)
    (hfeeds : ∀ {a b}, g.Feeds a b → g'.Feeds a b) : g'.ConflictFree := by
  refine ⟨hsharing ▸ k.apart, hsharing ▸ k.once, fun e he => ?_, ?_⟩
  · obtain ⟨ho, hm⟩ := k.live e (hsharing ▸ he)
    exact ⟨hlive ho, hlive hm⟩
  · rw [hsharing]
    intro x y r r' hne hxy hx hy ho
    have hx := hwrite (k.live_of_connected hxy hne) hx
    have hy := hwrite (k.live_of_connected hxy.symm (Ne.symm hne)) hy
    have hle : g.Feeds ≤ g'.Feeds := fun _ _ => hfeeds
    exact (k.ordered hne hxy hx hy ho).imp (ReflTransGen.mono hle x y) (ReflTransGen.mono hle y x)

theorem place (k : g.ConflictFree) (hs : g.Sound) (name : String) (op : Operation)
    (inputs : List NodeId) : (g.place name op inputs).ConflictFree := by
  have hkeep : ∀ {x}, g.contains x = true → (g.place name op inputs).node? x = g.node? x := by
    intro x hx
    obtain ⟨n, hn⟩ := contains_iff.1 hx
    rw [node_place hs hn, hn]
  refine k.grow rfl (fun hx => ?_) (fun hx hr => ?_) fun hf => ?_
  · rwa [contains, hkeep hx]
  · rwa [writeRegion_congr (g := g) (by rw [hkeep hx])] at hr
  · obtain ⟨n, hn, ha⟩ := hf
    exact ⟨n, (hkeep (contains_iff.2 ⟨n, hn⟩)).trans hn, ha⟩

theorem mark (k : g.ConflictFree) (h : g.mark id = .ok g') : g'.ConflictFree := by
  obtain ⟨_, -, hok⟩ := Result.bind_eq_ok.1 h
  obtain rfl := Except.ok.inj hok
  split
  · exact k
  · exact k.grow rfl (fun hx => hx) (fun _ hr => hr) fun hf => hf

/-- A node that is settled as optimized writes nothing any more. -/
theorem setState (k : g.ConflictFree) (id : NodeId) {s : FusionState}
    (hopt : s.isOptimized = true) : (g.setState id s).ConflictFree := by
  have w := sameWiring_setState g id s
  refine k.grow rfl (fun hx => (w.contains_eq _).trans hx) (fun {x r} hx hr => ?_) w.feeds_iff.2
  rw [← hr]
  refine (writeRegion_congr ?_).symm
  by_cases hid : id = x
  · obtain ⟨n, hn⟩ := contains_iff.1 hx
    simp [writeRegion, node?_setState, hid, hn, hopt] at hr
  · rw [node?_setState, if_neg hid]

/-- A writer of a buffer that a proposal touches is one of those that are checked. -/
theorem mem_checked {e : SharingEdge} (he : e ∈ es)
    (hx : Connected (g.sharing.edges ++ es) e.owner x)
    (hr : writeRegion g (g.sharing.edges ++ es) x = some r) :
    (x, r) ∈ (touched (g.sharing.edges ++ es) es).filterMap fun id =>
      (writeRegion g (g.sharing.edges ++ es) id).map fun r => (id, r) :=
  List.mem_filterMap.2 ⟨x, mem_touched.2 ⟨e, he, hx⟩, by rw [hr, Option.map_some]⟩

/-- What is checked is there: a node of a buffer is the proposed owner or an end of an edge. -/
theorem live_of_checked (k : g.ConflictFree)
    (hlive : ∀ e ∈ es, g.contains e.owner = true ∧ g.contains e.member = true)
    {e : SharingEdge} (he : e ∈ es) (hx : Connected (g.sharing.edges ++ es) e.owner x) :
    g.contains x = true := by
  by_cases hne : x = e.owner
  · exact hne ▸ (hlive e he).1
  · obtain ⟨e', he', hend⟩ := hx.symm.end_of_ne hne
    obtain ⟨ho, hm⟩ := List.forall_mem_append.2 ⟨k.live, hlive⟩ e' he'
    rcases hend with rfl | rfl
    · exact ho
    · exact hm

theorem propose (k : g.ConflictFree) (hs : g.Sound) (h : g.propose es = .ok g') :
    g'.ConflictFree := by
  obtain ⟨rfl, honce, hfree, hapart⟩ := propose_eq_ok h
  obtain ⟨_, hv, -⟩ := Result.bind_eq_ok.1 h
  obtain ⟨_, hm, hpairs⟩ := Result.bind_eq_ok.1 hv
  have hlive := live_of_checkMembers hm
  refine ⟨List.forall_mem_append.2 ⟨k.apart, hapart⟩, ?_,
    List.forall_mem_append.2 ⟨k.live, hlive⟩, ?_⟩
  · rw [sharing_setSharing, edges_commit, Once, List.map_append]
    refine List.nodup_append.2 ⟨k.once, honce, ?_⟩
    rintro _ hm₁ _ hm₂ rfl
    obtain ⟨e', he', hm₁⟩ := List.mem_map.1 hm₁
    obtain ⟨e, he, hm₂⟩ := List.mem_map.1 hm₂
    exact hfree e he e' he' (hm₁.trans hm₂.symm)
  · intro x y r r' hne hxy hx hy ho
    by_cases htouch : ∃ e ∈ es, Connected (g.sharing.edges ++ es) x e.owner
    · -- the buffer is touched: the pair was checked
      obtain ⟨e, he, hxe⟩ := htouch
      have hpair := orderedIn_of_checkPairs hs (fun w hw => ?_) hpairs
        (mem_checked he hxe.symm hx) (mem_checked he (hxe.symm.trans hxy) hy)
        fun heq => hne (Prod.mk.inj heq).1
      · exact hpair (.inl ho)
      · obtain ⟨z, hz, hw⟩ := List.mem_filterMap.1 hw
        obtain ⟨_, -, rfl⟩ := Option.map_eq_some_iff.1 hw
        obtain ⟨e, he, hz⟩ := mem_touched.1 hz
        exact k.live_of_checked hlive he hz
    · -- elsewhere all is as it was
      have hout : ∀ {z}, Connected (g.sharing.edges ++ es) x z →
          ∀ e ∈ es, e.owner ≠ z ∧ e.member ≠ z := by
        intro z hxz e he
        refine ⟨fun ho => htouch ⟨e, he, ho ▸ hxz⟩, fun hm => htouch ⟨e, he, ?_⟩⟩
        exact hxz.tail ⟨e, List.mem_append_right _ he, .inr ⟨rfl, hm⟩⟩
      have hold := hxy.of_append fun e he hxe => htouch ⟨e, he, hxe⟩
      have hx : writeRegion g (g.sharing.edges ++ es) x = some r := hx
      have hy : writeRegion g (g.sharing.edges ++ es) y = some r' := hy
      rw [writeRegion_append (hout .refl)] at hx
      rw [writeRegion_append (hout hxy)] at hy
      exact k.ordered hne hold hx hy ho

end ConflictFree

end Graph

/-- The calls that grow a graph, share buffers, and settle nodes as optimized. -/
def Edit.grows : Edit → Bool
  | .add .. | .mark _ | .propose _ => true
  | .setState _ s => s.isOptimized
  | _ => false

namespace Graph

variable {g : Graph}

theorem ConflictFree.edit (k : g.ConflictFree) (hs : g.Sound) {e : Edit}
    (he : e.grows = true) : (g.edit e).1.ConflictFree := by
  cases e with
  | add name op inputs =>
    refine settle_cases k fun g' h => ?_
    obtain ⟨⟨h', id⟩, hadd, rfl⟩ := Result.map_eq_ok.1 h
    obtain ⟨rfl, -⟩ := add_eq_ok hadd
    exact k.place hs name op inputs
  | mark id => exact settle_cases k fun g' h => k.mark h
  | propose es => exact settle_cases k fun g' h => k.propose hs h
  | setState id s => exact settle_cases k fun g' h => annotate_eq_ok h ▸ k.setState id he
  | _ => cases he

/-- While a graph is grown, buffers are shared and nodes settled as optimized, the sharing stays
free of conflicts; and a proposal that is refused leaves it as it is. -/
theorem conflictFree_edited {edits : List Edit} (h : ∀ e ∈ edits, e.grows = true) :
    (edited edits).ConflictFree ∧ ∀ es err, ((edited edits).edit (.propose es)).2 = .error err →
      ((edited edits).edit (.propose es)).1.sharing.edges = (edited edits).sharing.edges := by
  constructor
  · refine (edited_induction (P := fun g => g.Sound ∧ g.ConflictFree)
      ⟨sound_empty, conflictFree_empty⟩ fun g e he k => ?_).2
    exact ⟨k.1.edit e, k.2.edit k.1 (h e he)⟩
  · intro es err herr
    simp only [edit, settle] at herr ⊢
    split at herr
    · cases herr
    · rfl

/-- Two reorders of one input are joined. They may not both write the first slice; a slice for each
is accepted. -/
def joinedSample : List Edit :=
  [.add "x" (.input (.plain (.ofSizes [2]) .f32)) [], .add "a" (.reorder .bfyx .f32) [0],
    .add "b" (.reorder .bfyx .f32) [0], .add "c" (.concatenation 0) [1, 2],
    .propose [⟨3, 1, .slice 0 0 (.known 0) (.known 2)⟩, ⟨3, 2, .slice 0 0 (.known 0) (.known 2)⟩],
    .propose [⟨3, 1, .slice 0 0 (.known 0) (.known 2)⟩, ⟨3, 2, .slice 1 0 (.known 2) (.known 2)⟩],
    .setState 3 (.optimized 3 0)]

theorem conflictFree_joinedSample :
    (edited joinedSample).sharing.edges =
      [⟨3, 1, .slice 0 0 (.known 0) (.known 2)⟩, ⟨3, 2, .slice 1 0 (.known 2) (.known 2)⟩] ∧
    (edited joinedSample).ConflictFree :=
  ⟨by decide, (conflictFree_edited (by decide)).1⟩

end Graph
end BufferFusion
