import BufferFusion.Proofs.Sharing.Writers

/-!
# Independent proposals

Two proposals whose buffers have no node in common, made at once. Each buffer is what it is when its
own proposal is made alone, and so are its writers. But the writers of all buffers that a proposal
touches are compared with each other, also those of different buffers, which share no memory: so two
proposals that are accepted one by one may be refused together.
-/
namespace BufferFusion

namespace Sharing

open Relation

variable {g : Graph} {es ps qs all : List SharingEdge} {ws : List (NodeId × Region)}
  {placed : List NodeId} {a b w : NodeId × Region} {x y : NodeId} {r : Region} {err : Error}

/-! ### Checks -/

theorem checkMembers_eq_ok_iff : checkMembers g placed ps = .ok () ↔
    (∀ e ∈ ps, g.contains e.owner = true ∧ g.contains e.member = true) ∧
      (∀ e ∈ ps, e.owner ≠ e.member) ∧ Once ps ∧ ∀ e ∈ ps, e.member ∉ placed := by
  constructor
  · intro h
    obtain ⟨honce, hfree, hne⟩ := once_of_checkMembers h
    exact ⟨Graph.live_of_checkMembers h, hne, honce, hfree⟩
  · rintro ⟨hlive, hne, honce, hfree⟩
    exact checkMembers_eq_ok hlive hne honce hfree

/-- The check of two writers, the one with the smaller id first. -/
def checkBoth (g : Graph) (a b : NodeId × Region) : Result Unit :=
  if a.1 < b.1 then checkPair g a b else checkPair g b a

theorem checkBoth_comm (hne : a.1 ≠ b.1) : checkBoth g a b = checkBoth g b a := by
  obtain h | h := Nat.lt_or_gt_of_ne hne
  · rw [checkBoth, checkBoth, if_pos h, if_neg (Nat.not_lt_of_gt h)]
  · rw [checkBoth, checkBoth, if_pos h, if_neg (Nat.not_lt_of_gt h)]

/-- A list of writers by ascending id is checked two by two. -/
theorem checkPairs_eq_ok_iff (hws : ws.Pairwise fun a b => a.1 < b.1) :
    checkPairs g ws = .ok () ↔
      ∀ a ∈ ws, ∀ b ∈ ws, a.1 ≠ b.1 → checkBoth g a b = .ok () := by
  constructor
  · intro h
    have hpair : ws.Pairwise fun a b => a.1 ≠ b.1 → checkBoth g a b = .ok () :=
      ((pairwise_of_checkPairs h).and hws).imp fun ⟨hok, hlt⟩ _ => by rwa [checkBoth, if_pos hlt]
    have hsymm : Std.Symm fun a b : NodeId × Region => a.1 ≠ b.1 → checkBoth g a b = .ok () :=
      ⟨fun a b h hne => (checkBoth_comm hne).trans (h (Ne.symm hne))⟩
    intro a ha b hb hne
    exact hpair.forall ha hb (fun h => hne (congrArg Prod.fst h)) hne
  · intro h
    induction hws with
    | nil => rfl
    | @cons w ws hw _ ih =>
      have hall : ws.forM (checkPair g w) = .ok () := Result.forM_eq_ok.2 fun b hb => by
        have := h w List.mem_cons_self b (List.mem_cons_of_mem _ hb) (Nat.ne_of_lt (hw b hb))
        rwa [checkBoth, if_pos (hw b hb)] at this
      rw [checkPairs, hall]
      exact ih fun a ha b hb => h a (List.mem_cons_of_mem _ ha) b (List.mem_cons_of_mem _ hb)

/-- The check fails by two of them. -/
theorem exists_of_checkPairs_eq_error (hws : ws.Pairwise fun a b => a.1 < b.1)
    (h : checkPairs g ws = .error err) :
    ∃ a ∈ ws, ∃ b ∈ ws, a.1 ≠ b.1 ∧ checkBoth g a b = .error err := by
  induction hws with
  | nil => cases h
  | @cons w ws hw _ ih =>
    obtain h | ⟨_, -, h⟩ := Result.bind_eq_error.1 h
    · obtain ⟨b, hb, hwb⟩ := Result.exists_of_forM_eq_error h
      exact ⟨w, List.mem_cons_self, b, List.mem_cons_of_mem _ hb, Nat.ne_of_lt (hw b hb),
        by rwa [checkBoth, if_pos (hw b hb)]⟩
    · obtain ⟨a, ha, b, hb, hab⟩ := ih h
      exact ⟨a, List.mem_cons_of_mem _ ha, b, List.mem_cons_of_mem _ hb, hab⟩

/-- Writers that are there pass the check if their regions can be compared and, where these overlap,
a path leads from one to the other. -/
theorem checkPair_eq_ok_iff (hs : g.Sound) (ha : g.contains a.1 = true) (hb : g.contains b.1 = true) :
    checkPair g a b = .ok () ↔ (∃ meets, a.2.overlaps b.2 = .ok meets) ∧ OrderedIn g a b := by
  constructor
  · intro h
    obtain ⟨meets, hmeets, -⟩ := Result.bind_eq_ok.1 h
    exact ⟨⟨meets, hmeets⟩, orderedIn_of_checkPair hs ha hb h⟩
  · rintro ⟨⟨meets, hmeets⟩, hordered⟩
    rw [checkPair, hs.hasPath_eq ha, hs.hasPath_eq hb, hmeets]
    cases meets with
    | false => rfl
    | true =>
      have hpath := hordered (.inl hmeets)
      rw [← hs.reaches_iff ha, ← hs.reaches_iff hb] at hpath
      cases hab : g.reaches a.1 b.1 with
      | true => rfl
      | false =>
        have hba := hpath.resolve_left (by simp [hab])
        simp only [hba, bind, Except.bind, if_true]
        rfl

theorem checkBoth_eq_ok_iff (hs : g.Sound) (ha : g.contains a.1 = true)
    (hb : g.contains b.1 = true) : checkBoth g a b = .ok () ↔
      (∃ meets, (if a.1 < b.1 then a.2.overlaps b.2 else b.2.overlaps a.2) = .ok meets) ∧
        OrderedIn g a b := by
  rw [checkBoth]
  split
  · exact checkPair_eq_ok_iff hs ha hb
  · rw [checkPair_eq_ok_iff hs hb ha]
    exact and_congr_right fun _ => ⟨OrderedIn.symm, OrderedIn.symm⟩

/-! ### Writers -/

/-- Who writes in the buffers that a proposal touches, by ascending id. -/
def writers (g : Graph) (es proposed : List SharingEdge) : List (NodeId × Region) :=
  (touched (es ++ proposed) proposed).filterMap fun id =>
    (writeRegion g (es ++ proposed) id).map fun r => (id, r)

theorem mem_writers : (x, r) ∈ writers g es ps ↔
    x ∈ touched (es ++ ps) ps ∧ writeRegion g (es ++ ps) x = some r := by
  simp only [writers, List.mem_filterMap, Option.map_eq_some_iff, Prod.mk.injEq]
  constructor
  · rintro ⟨_, hx, _, hr, rfl, rfl⟩
    exact ⟨hx, hr⟩
  · rintro ⟨hx, hr⟩
    exact ⟨x, hx, r, hr, rfl, rfl⟩

theorem writers_ascending (g : Graph) (es ps : List SharingEdge) :
    (writers g es ps).Pairwise fun a b => a.1 < b.1 := by
  refine List.pairwise_filterMap.2 ((Ascending.pairwise_ofList _).imp fun hlt p hp q hq => ?_)
  obtain ⟨_, -, rfl⟩ := Option.map_eq_some_iff.1 hp
  obtain ⟨_, -, rfl⟩ := Option.map_eq_some_iff.1 hq
  exact hlt

theorem validate_eq {s : Sharing} : s.validate g ps = (do
    checkMembers g (s.edges.map (·.member)) ps
    checkPairs g (writers g s.edges ps)) := rfl

/-- A proposal is accepted if its edges may be there and its writers pass two by two. -/
theorem propose_eq_ok_iff : (∃ g', g.propose ps = .ok g') ↔
    checkMembers g (g.sharing.edges.map (·.member)) ps = .ok () ∧
      ∀ a ∈ writers g g.sharing.edges ps, ∀ b ∈ writers g g.sharing.edges ps, a.1 ≠ b.1 →
        checkBoth g a b = .ok () := by
  rw [← checkPairs_eq_ok_iff (writers_ascending ..)]
  constructor
  · rintro ⟨g', h⟩
    obtain ⟨_, hv, -⟩ := Result.bind_eq_ok.1 h
    obtain ⟨_, hm, hp⟩ := Result.bind_eq_ok.1 (validate_eq ▸ hv)
    exact ⟨hm, hp⟩
  · rintro ⟨hm, hp⟩
    exact ⟨_, Result.bind_eq_ok.2 ⟨(), Result.bind_eq_ok.2 ⟨(), hm, hp⟩, rfl⟩⟩

/-! ### Two proposals at once -/

/-- A buffer is what the edges that touch it make it. -/
theorem Connected.confined {edges : List SharingEdge} (h : Connected all x y)
    (hout : ∀ e ∈ all, e ∉ edges → ∀ z, Connected edges x z → e.touches z = false) :
    Connected edges x y := by
  induction h with
  | refl => exact .refl
  | @tail b c _ hadj ih =>
    obtain ⟨e, he, hends⟩ := hadj
    by_cases hin : e ∈ edges
    · exact ih.tail ⟨e, hin, hends⟩
    · have := hout e he hin b ih
      rcases hends with ⟨rfl, -⟩ | ⟨-, rfl⟩ <;> simp [SharingEdge.touches] at this

theorem Connected.mono {edges : List SharingEdge} (h : Connected edges x y)
    (hsub : ∀ e ∈ edges, e ∈ all) : Connected all x y :=
  ReflTransGen.mono (fun _ _ ⟨e, he, hends⟩ => ⟨e, hsub e he, hends⟩) _ _ h

/-- What a node writes is said by the edges that touch it. -/
theorem writeRegion_of_filter {edges : List SharingEdge}
    (h : all.filter (·.touches x) = edges.filter (·.touches x)) :
    writeRegion g all x = writeRegion g edges x := by
  have hsilent : ∀ e : SharingEdge, (e.touches x && silences x e) = silences x e := by
    intro e
    rw [silences]
    split <;> simp +contextual [SharingEdge.touches]
  have hslice : ∀ e : SharingEdge,
      (if e.touches x then sliceRegion? x e else none) = sliceRegion? x e := by
    rintro ⟨owner, member, placement⟩
    cases placement <;> simp +contextual [sliceRegion?, SharingEdge.touches]
  have hany : ∀ es : List SharingEdge,
      (es.filter (·.touches x)).any (silences x) = es.any (silences x) := fun es => by
    rw [List.any_filter, funext hsilent]
  have hmap : ∀ es : List SharingEdge,
      (es.filter (·.touches x)).filterMap (sliceRegion? x) = es.filterMap (sliceRegion? x) :=
    fun es => by rw [List.filterMap_filter, funext hslice]
  rw [writeRegion, writeRegion, ← hany all, ← hmap all, h, hany, hmap]

/-- The buffers that the one proposal touches have no node in common with those of the other. -/
def Independent (es ps qs : List SharingEdge) : Prop :=
  ∀ x ∈ touched (es ++ ps) ps, x ∉ touched (es ++ qs) qs

namespace Independent

theorem symm (h : Independent es ps qs) : Independent es qs ps := fun x hq hp => h x hp hq

/-- An edge of the other proposal is not at a node that the one touches. -/
theorem touches_eq_false (h : Independent es ps qs) (hx : x ∈ touched (es ++ ps) ps) :
    ∀ e ∈ qs, e.touches x = false := by
  intro e he
  by_contra htouch
  refine h x hx (mem_touched.2 ⟨e, he, ?_⟩)
  obtain rfl | rfl := touches_iff.1 (Bool.not_eq_false _ ▸ htouch)
  · exact .refl
  · exact .single ⟨e, List.mem_append_right _ he, .inl ⟨rfl, rfl⟩⟩

/-- The buffer of an edge is the same when the other proposal is made as well. -/
theorem connected_iff (h : Independent es ps qs)
    (hall : ∀ e, e ∈ all ↔ e ∈ es ∨ e ∈ ps ∨ e ∈ qs) {p : SharingEdge} (hp : p ∈ ps) :
    Connected all p.owner x ↔ Connected (es ++ ps) p.owner x := by
  refine ⟨fun hx => hx.confined fun e he hout z hz => ?_, fun hx => hx.mono fun e he =>
    (hall e).2 ((List.mem_append.1 he).imp_right .inl)⟩
  rw [List.mem_append, not_or] at hout
  have hq := ((hall e).1 he).resolve_left hout.1 |>.resolve_left hout.2
  exact h.touches_eq_false (mem_touched.2 ⟨p, hp, hz⟩) e hq

/-- The buffers that are touched at once are those touched one by one. -/
theorem mem_touched_append (h : Independent es ps qs) :
    x ∈ touched (es ++ (ps ++ qs)) (ps ++ qs) ↔
      x ∈ touched (es ++ ps) ps ∨ x ∈ touched (es ++ qs) qs := by
  have hps : ∀ p, p ∈ ps → (Connected (es ++ (ps ++ qs)) p.owner x ↔
      Connected (es ++ ps) p.owner x) := fun p hp => h.connected_iff (by simp) hp
  have hqs : ∀ q, q ∈ qs → (Connected (es ++ (ps ++ qs)) q.owner x ↔
      Connected (es ++ qs) q.owner x) := fun q hq => h.symm.connected_iff (by simp [or_comm]) hq
  simp only [mem_touched, List.mem_append, or_and_right, exists_or]
  exact or_congr (exists_congr fun p => and_congr_right (hps p))
    (exists_congr fun q => and_congr_right (hqs q))

/-- And so are their writers. -/
theorem mem_writers_append (h : Independent es ps qs) : w ∈ writers g es (ps ++ qs) ↔
    w ∈ writers g es ps ∨ w ∈ writers g es qs := by
  obtain ⟨x, r⟩ := w
  have hfilter : ∀ {xs : List SharingEdge}, (∀ e ∈ xs, e.touches x = false) →
      xs.filter (·.touches x) = [] := fun hxs => List.filter_eq_nil_iff.2 fun e he => by
    rw [hxs e he]; nofun
  rw [mem_writers, mem_writers, mem_writers, h.mem_touched_append, or_and_right]
  refine or_congr (and_congr_right fun hx => ?_) (and_congr_right fun hx => ?_)
  · rw [@writeRegion_of_filter _ _ _ (es ++ ps)]
    simp only [List.filter_append, hfilter (h.touches_eq_false hx), List.append_nil]
  · rw [@writeRegion_of_filter _ _ _ (es ++ qs)]
    simp only [List.filter_append, hfilter (h.symm.touches_eq_false hx), List.nil_append]

/-- The edges may be there at once if they may be there one by one. -/
theorem checkMembers_append (h : Independent es ps qs) :
    checkMembers g placed (ps ++ qs) = .ok () ↔
      checkMembers g placed ps = .ok () ∧ checkMembers g placed qs = .ok () := by
  have hdisj : ∀ p ∈ ps, ∀ q ∈ qs, p.member ≠ q.member := by
    intro p hp q hq heq
    have hp' : p.member ∈ touched (es ++ ps) ps :=
      mem_touched.2 ⟨p, hp, .single ⟨p, List.mem_append_right _ hp, .inl ⟨rfl, rfl⟩⟩⟩
    have := h.touches_eq_false hp' q hq
    simp [SharingEdge.touches, heq] at this
  have honce : Once (ps ++ qs) ↔ Once ps ∧ Once qs := by
    rw [Once, Once, Once, List.map_append, List.nodup_append]
    constructor
    · exact fun h => ⟨h.1, h.2.1⟩
    · refine fun h => ⟨h.1, h.2, ?_⟩
      rintro _ hm _ hm' rfl
      obtain ⟨p, hp, hpe⟩ := List.mem_map.1 hm
      obtain ⟨q, hq, hqe⟩ := List.mem_map.1 hm'
      exact hdisj p hp q hq (hpe.trans hqe.symm)
  simp only [checkMembers_eq_ok_iff, List.forall_mem_append, honce]
  tauto

end Independent

end Sharing

namespace Graph

open Sharing

variable {g : Graph} {ps qs : List SharingEdge}

/-- Two proposals for buffers without a common node are accepted together if and only if both are
accepted alone and every writer in a buffer of the one passes the check against every writer in a
buffer of the other, though these buffers share no memory: if their regions overlap as regions of
one buffer would, a path has to lead from one to the other. Where both are accepted alone but not
together, it is such a check that fails. -/
theorem Reachable.propose_append (hg : g.Reachable) (h : Independent g.sharing.edges ps qs) :
    ((∃ g', g.propose (ps ++ qs) = .ok g') ↔
      (∃ g', g.propose ps = .ok g') ∧ (∃ g', g.propose qs = .ok g') ∧
        ∀ a ∈ writers g g.sharing.edges ps, ∀ b ∈ writers g g.sharing.edges qs,
          checkBoth g a b = .ok ()) ∧
      (∀ a ∈ writers g g.sharing.edges ps, ∀ b ∈ writers g g.sharing.edges qs,
        g.contains a.1 = true → g.contains b.1 = true → (checkBoth g a b = .ok () ↔
          (∃ meets, (if a.1 < b.1 then a.2.overlaps b.2 else b.2.overlaps a.2) = .ok meets) ∧
            OrderedIn g a b)) ∧
      ∀ g₁ g₂ err, g.propose ps = .ok g₁ → g.propose qs = .ok g₂ →
        g.propose (ps ++ qs) = .error err →
        ∃ a ∈ writers g g.sharing.edges ps, ∃ b ∈ writers g g.sharing.edges qs,
          checkBoth g a b = .error err := by
  have hne : ∀ a ∈ writers g g.sharing.edges ps, ∀ b ∈ writers g g.sharing.edges qs,
      a.1 ≠ b.1 := fun a ha b hb heq => h a.1 (mem_writers.1 ha).1 (heq ▸ (mem_writers.1 hb).1)
  refine ⟨?_, fun a _ b _ ha hb => checkBoth_eq_ok_iff hg.sound ha hb, ?_⟩
  · simp only [propose_eq_ok_iff, h.checkMembers_append, h.mem_writers_append]
    constructor
    · rintro ⟨⟨hp, hq⟩, hall⟩
      exact ⟨⟨hp, fun a ha b hb => hall a (.inl ha) b (.inl hb)⟩,
        ⟨hq, fun a ha b hb => hall a (.inr ha) b (.inr hb)⟩,
        fun a ha b hb => hall a (.inl ha) b (.inr hb) (hne a ha b hb)⟩
    · rintro ⟨⟨hp, hps⟩, ⟨hq, hqs⟩, hboth⟩
      refine ⟨⟨hp, hq⟩, ?_⟩
      rintro a (ha | ha) b (hb | hb) hab
      · exact hps a ha b hb hab
      · exact hboth a ha b hb
      · exact (checkBoth_comm hab).trans (hboth b hb a ha)
      · exact hqs a ha b hb hab
  · intro g₁ g₂ err h₁ h₂ herr
    obtain ⟨hp, hps⟩ := propose_eq_ok_iff.1 ⟨g₁, h₁⟩
    obtain ⟨hq, hqs⟩ := propose_eq_ok_iff.1 ⟨g₂, h₂⟩
    -- the members pass, so it is two writers that fail, and they are not of one proposal
    have hpairs : checkPairs g (writers g g.sharing.edges (ps ++ qs)) = .error err := by
      obtain hv | ⟨_, -, hok⟩ := Result.bind_eq_error.1 herr
      · rw [validate_eq, h.checkMembers_append.2 ⟨hp, hq⟩] at hv
        exact hv
      · cases hok
    obtain ⟨a, ha, b, hb, hab, hfail⟩ := exists_of_checkPairs_eq_error (writers_ascending ..) hpairs
    obtain ha | ha := h.mem_writers_append.1 ha <;> obtain hb | hb := h.mem_writers_append.1 hb
    · cases hfail.symm.trans (hps a ha b hb hab)
    · exact ⟨a, ha, b, hb, hfail⟩
    · exact ⟨b, hb, a, ha, (checkBoth_comm (Ne.symm hab)).trans hfail⟩
    · cases hfail.symm.trans (hqs a ha b hb hab)

/-- Transposes of two inputs, and of a copy of the first one. -/
def pairSample : Graph :=
  (((((empty.place "x" (.input (.plain (.ofSizes [2, 2]) .f32)) []).place "y"
    (.input (.plain (.ofSizes [2, 2]) .f32)) []).place "a" (.permute [1, 0]) [0]).place "b"
      (.permute [1, 0]) [1]).place "c" (.reorder .bfyx .f32) [0]).place "d" (.permute [1, 0]) [4]

theorem reachable_pairSample : pairSample.Reachable :=
  (Built.empty.place rfl |>.place rfl |>.place rfl |>.place rfl |>.place rfl |>.place rfl).reachable

/-- The transposes of both inputs may be views of them, but not at once: the inputs write buffers
that have nothing in common, and are refused for not being ordered. -/
theorem not_both_pairSample : pairSample.Reachable ∧
    Independent pairSample.sharing.edges [⟨0, 2, .view 0⟩] [⟨1, 3, .view 0⟩] ∧
    (∃ g', pairSample.propose [⟨0, 2, .view 0⟩] = .ok g') ∧
    (∃ g', pairSample.propose [⟨1, 3, .view 0⟩] = .ok g') ∧
    ¬ ∃ g', pairSample.propose ([⟨0, 2, .view 0⟩] ++ [⟨1, 3, .view 0⟩]) = .ok g' := by
  refine ⟨reachable_pairSample, by unfold Independent; decide, ⟨_, rfl⟩, ⟨_, rfl⟩, ?_⟩
  rintro ⟨g', h⟩
  cases h

/-- The input comes before its copy, so its transpose and that of the copy may be views at once. -/
theorem propose_append_pairSample :
    (∃ g', pairSample.propose ([⟨0, 2, .view 0⟩] ++ [⟨4, 5, .view 0⟩]) = .ok g') ∧
    ∃ a ∈ writers pairSample pairSample.sharing.edges [⟨0, 2, .view 0⟩],
      ∃ b ∈ writers pairSample pairSample.sharing.edges [⟨1, 3, .view 0⟩],
        checkBoth pairSample a b = .error (.unorderedWriters "x" "y") := by
  constructor
  · exact (@Reachable.propose_append pairSample [⟨0, 2, .view 0⟩] [⟨4, 5, .view 0⟩]
      reachable_pairSample (by unfold Independent; decide)).1.2 ⟨⟨_, rfl⟩, ⟨_, rfl⟩, by decide⟩
  · exact (@Reachable.propose_append pairSample [⟨0, 2, .view 0⟩] [⟨1, 3, .view 0⟩]
      reachable_pairSample (by unfold Independent; decide)).2.2 _ _ _ rfl rfl rfl

end Graph
end BufferFusion
