import BufferFusion.Proofs.Fusion.Roots
import BufferFusion.Proofs.Result

/-!
# Proposals that are accepted

A proposal is checked against the graph as it would be. Where states and edges agree in that graph,
the writers of a component are slices of one concatenation, and no two of them overlap. So a
proposal of that kind is refused only for placing a node twice.
-/
namespace BufferFusion

namespace Sharing

variable {g : Graph} {e : SharingEdge} {es edges : List SharingEdge} {placed : List NodeId}
  {ws : List (NodeId × Region)} {x o : NodeId}

theorem checkMembers_eq_ok (hlive : ∀ e ∈ es, g.contains e.owner = true ∧ g.contains e.member = true)
    (hne : ∀ e ∈ es, e.owner ≠ e.member) (honce : Once es)
    (hfree : ∀ e ∈ es, e.member ∉ placed) : checkMembers g placed es = .ok () := by
  induction es generalizing placed with
  | nil => rfl
  | cons e es ih =>
    obtain ⟨hnew, hrest⟩ := List.nodup_cons.1 honce
    obtain ⟨ho, hm⟩ := hlive e List.mem_cons_self
    obtain ⟨n, hn⟩ := Graph.contains_iff.1 ho
    obtain ⟨m, hm⟩ := Graph.contains_iff.1 hm
    simp only [checkMembers, Graph.get_eq_ok.2 hn, Graph.get_eq_ok.2 hm, bind, Except.bind]
    rw [if_neg (hne e List.mem_cons_self), if_neg (by simpa using hfree e List.mem_cons_self)]
    refine ih (fun x hx => hlive x (List.mem_cons_of_mem _ hx))
      (fun x hx => hne x (List.mem_cons_of_mem _ hx)) hrest fun x hx hxp => ?_
    rcases List.mem_cons.1 hxp with heq | hxp
    · exact hnew (List.mem_map.2 ⟨x, hx, heq⟩)
    · exact hfree x (List.mem_cons_of_mem _ hx) hxp

/-- Nodes that are there can only be in conflict. -/
theorem kind_of_checkMembers
    (hlive : ∀ e ∈ es, g.contains e.owner = true ∧ g.contains e.member = true) {err : Error}
    (h : checkMembers g placed es = .error err) : err.kind = .bufferConflict := by
  induction es generalizing placed with
  | nil => cases h
  | cons e es ih =>
    obtain ⟨ho, hm⟩ := hlive e List.mem_cons_self
    obtain ⟨n, hn⟩ := Graph.contains_iff.1 ho
    obtain ⟨m, hm⟩ := Graph.contains_iff.1 hm
    simp only [checkMembers, Graph.get_eq_ok.2 hn, Graph.get_eq_ok.2 hm, bind, Except.bind] at h
    split at h
    · obtain rfl := Except.error.inj h
      rfl
    split at h
    · obtain rfl := Except.error.inj h
      rfl
    exact ih (fun x hx => hlive x (List.mem_cons_of_mem _ hx)) h

theorem checkPairs_eq_ok (h : ws.Pairwise fun a b => a.2.overlaps b.2 = .ok false) :
    checkPairs g ws = .ok () := by
  induction h with
  | nil => rfl
  | @cons w ws hw _ ih =>
    have hall : ws.forM (checkPair g w) = .ok () :=
      Result.forM_eq_ok.2 fun b hb => by rw [checkPair, hw b hb]; rfl
    rw [checkPairs, hall]
    exact ih

theorem mem_touched : x ∈ touched edges es ↔ ∃ e ∈ es, Connected edges e.owner x := by
  simp only [touched, Ascending.mem_ofList, List.mem_flatten]
  constructor
  · rintro ⟨m, hm, hx⟩
    obtain ⟨o, ho, rfl⟩ := (mem_components hm).resolve_left List.not_mem_nil
    obtain ⟨e, he, rfl⟩ := List.mem_map.1 ho
    exact ⟨e, he, mem_component.1 hx⟩
  · rintro ⟨e, he, hx⟩
    have howner : e.owner ∈ es.map (·.owner) := List.mem_map.2 ⟨e, he, rfl⟩
    obtain ⟨m, hm, ho⟩ : ∃ m ∈ components edges (es.map (·.owner)) [], e.owner ∈ m :=
      exists_mem_components howner
    refine ⟨m, hm, ?_⟩
    obtain ⟨y, -, rfl⟩ := (mem_components hm).resolve_left List.not_mem_nil
    exact mem_component.2 ((mem_component.1 ho).trans hx)

/-- The region that a slice edge gives to its member. -/
theorem getLast?_sliceRegion? (h : Once edges) {owner member index axis : Nat} {offset extent : Dim}
    (he : ⟨owner, member, .slice index axis offset extent⟩ ∈ edges) :
    (edges.filterMap (sliceRegion? member)).getLast? =
      some (.slice owner index axis offset extent) := by
  have hall : ∀ r ∈ edges.filterMap (sliceRegion? member),
      r = .slice owner index axis offset extent := by
    intro r hr
    obtain ⟨⟨o, m, place⟩, hmem, hregion⟩ := List.mem_filterMap.1 hr
    cases place with
    | view => cases hregion
    | slice i a b x =>
      simp only [sliceRegion?] at hregion
      split at hregion
      · next hm =>
        subst hm
        obtain rfl := Option.some.inj hregion
        obtain ⟨rfl, -, hp⟩ := SharingEdge.mk.inj (h.eq hmem he rfl)
        obtain ⟨rfl, rfl, rfl, rfl⟩ := Placement.slice.inj hp
        rfl
      · cases hregion
  have hmem : Region.slice owner index axis offset extent ∈
      edges.filterMap (sliceRegion? member) :=
    List.mem_filterMap.2 ⟨_, he, by simp [sliceRegion?]⟩
  rw [List.getLast?_eq_getLast_of_ne_nil (List.ne_nil_of_mem hmem), hall _ (List.getLast_mem _)]

end Sharing

namespace Graph

open Sharing

variable {g : Graph} {id x y o : NodeId} {es : List SharingEdge} {st : FusionState}

/-- The graph that a proposal about one node is to make. -/
def placed (g : Graph) (id : NodeId) (es : List SharingEdge) (st : FusionState) : Graph :=
  (g.setSharing (g.sharing.commit es)).setState id st

/-- Who writes according to the check runs its kernel once the proposal is carried out. -/
theorem Linked.not_optimized_of_writeRegion (k : (g.placed id es st).Linked) (hs : g.Sound)
    {r : Region}
    (hr : writeRegion (g.setState id .eligible) (g.sharing.edges ++ es) x = some r) :
    ¬ (g.placed id es st).IsOptimized x := by
  have hw : (g.placed id es st).SameWiring g := sameWiring_place ..
  simp only [writeRegion] at hr
  split at hr
  · cases hr
  next hopt =>
  split at hr
  · cases hr
  next hsilent =>
  simp only [Bool.not_eq_true, List.any_eq_false] at hsilent
  rintro ⟨into, offset, hx⟩
  by_cases hid : id = x
  · rcases k.optimized hx with he | ⟨rfl, -, axis, ⟨n, hn, hop⟩, hall⟩
    · simpa [silences, Placement.isView] using hsilent _ he
    · -- a concatenation has an input, and its slice silences the owner
      have htakes := (hw.symm.sound hs).takes hn
      rw [hop] at htakes
      have hpos : 0 < n.inputs.length := by simpa [Operation.takes, Nat.lt_iff_add_one_le] using htakes
      obtain ⟨b, e, he⟩ := hall 0 _ ((input_eq_ok hn).2 (List.getElem?_eq_getElem hpos))
      simpa [silences, Placement.isView] using hsilent _ he
  · rw [placed, state?_place _ _ _ hid, state?] at hx
    obtain ⟨n, hn, hst⟩ := Option.map_eq_some_iff.1 hx
    rw [node?_setState, if_neg hid, hn, Option.any_some, hst] at hopt
    exact hopt rfl

/-- Two writers of one component write different slices of one concatenation. -/
theorem Linked.overlaps_eq_false (k : (g.placed id es st).Linked) (hs : g.Sound) (hne : x ≠ y)
    (hx : Connected (g.sharing.edges ++ es) o x) (hy : Connected (g.sharing.edges ++ es) o y)
    {r r' : Region} (hr : writeRegion (g.setState id .eligible) (g.sharing.edges ++ es) x = some r)
    (hr' : writeRegion (g.setState id .eligible) (g.sharing.edges ++ es) y = some r') :
    r.overlaps r' = .ok false := by
  have hs' : (g.placed id es st).Sound := (sameWiring_place ..).symm.sound hs
  have hox := k.not_optimized_of_writeRegion hs hr
  have hoy := k.not_optimized_of_writeRegion hs hr'
  obtain ⟨root, hpath, hend, -⟩ := k.rooted hs' x
  have hroot : (g.placed id es st).RootOf x root := ⟨hpath, hend⟩
  have hroot' := (k.rootOf_of_connected (hx.symm.trans hy)).1 hroot
  have howner : ∀ {z i axis b e}, ⟨root, z, .slice i axis b e⟩ ∈ g.sharing.edges ++ es →
      (g.placed id es st).IsOptimized root := fun he => ⟨root, 0, (k.owner he).1⟩
  rcases k.writer_cases hs' hox hroot with rfl | ⟨i, axis, b, e, he⟩
  · rcases k.writer_cases hs' hoy hroot' with rfl | ⟨j, axis', b', e', he'⟩
    · exact absurd rfl hne
    · exact absurd (howner he') hox
  rcases k.writer_cases hs' hoy hroot' with rfl | ⟨j, axis', b', e', he'⟩
  · exact absurd (howner he) hoy
  have hregion : ∀ {z i axis b e r}, ⟨root, z, .slice i axis b e⟩ ∈ g.sharing.edges ++ es →
      writeRegion (g.setState id .eligible) (g.sharing.edges ++ es) z = some r →
      r = .slice root i axis b e := by
    intro z i axis b e r he hr
    simp only [writeRegion] at hr
    split at hr
    · cases hr
    split at hr
    · cases hr
    have honce : Once (g.sharing.edges ++ es) := k.once
    rw [getLast?_sliceRegion? honce he, Option.getD_some] at hr
    exact (Option.some.inj hr).symm
  obtain rfl := hregion he hr
  obtain rfl := hregion he' hr'
  have hij : i ≠ j := by
    rintro rfl
    exact hne (Except.ok.inj ((k.owner he).2.2.symm.trans (k.owner he').2.2))
  simp [Region.overlaps, hij]

/-- A proposal that keeps states and edges in agreement is accepted. -/
theorem Linked.propose_eq_ok (k : (g.placed id es st).Linked) (hs : g.Sound)
    (howner : ∀ e ∈ es, e.owner = o)
    (hlive : ∀ e ∈ es, g.contains e.owner = true ∧ g.contains e.member = true)
    (hne : ∀ e ∈ es, e.owner ≠ e.member) :
    (g.setState id .eligible).propose es =
      .ok ((g.setState id .eligible).setSharing (g.sharing.commit es)) := by
  have hedges : (g.placed id es st).sharing.edges = g.sharing.edges ++ es := rfl
  have honce := k.once
  rw [hedges, Once, List.map_append] at honce
  obtain ⟨-, hes, hdisj⟩ := List.nodup_append.1 honce
  have hmembers : checkMembers (g.setState id .eligible) (g.sharing.edges.map (·.member)) es =
      .ok () := by
    have hw := sameWiring_setState g id .eligible
    refine checkMembers_eq_ok (fun e he => ?_) hne hes fun e he hmem => ?_
    · rw [hw.contains_eq, hw.contains_eq]
      exact hlive e he
    · exact hdisj _ hmem _ (List.mem_map.2 ⟨e, he, rfl⟩) rfl
  have hpairs : checkPairs (g.setState id .eligible)
      ((touched (g.sharing.edges ++ es) es).filterMap fun x =>
        (writeRegion (g.setState id .eligible) (g.sharing.edges ++ es) x).map fun r => (x, r)) =
      .ok () := by
    refine checkPairs_eq_ok (List.pairwise_filterMap.2 ?_)
    refine (Ascending.pairwise_ofList _).imp_of_mem fun {a b} ha hb hlt p hp q hq => ?_
    obtain ⟨r, hr, rfl⟩ := Option.map_eq_some_iff.1 hp
    obtain ⟨r', hr', rfl⟩ := Option.map_eq_some_iff.1 hq
    obtain ⟨e, he, hea⟩ := mem_touched.1 ha
    obtain ⟨e', he', heb⟩ := mem_touched.1 hb
    rw [howner e he] at hea
    rw [howner e' he'] at heb
    exact k.overlaps_eq_false hs (Nat.ne_of_lt hlt) hea heb hr hr'
  simp only [propose, validate, sharing_setState, hmembers, hpairs, bind, Except.bind]
  rfl

end Graph
end BufferFusion
