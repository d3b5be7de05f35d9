import BufferFusion.Execution.Plan
import BufferFusion.Proofs.Execution.Disjoint
import BufferFusion.Proofs.Execution.Revalidation

/-!
# Planned buffers

Every node is bound to a buffer that has room for its layout. Two nodes that write into one buffer
are two slices of the same concatenation, so no element is written by both.
-/
namespace BufferFusion

open Graph Relation

variable {g : Graph} {values : InputValues} {plan : BufferPlan} {buffer : LogicalBuffer}
  {id x y root : NodeId}

theorem le_foldl_max {ns : List Nat} {n a : Nat} (h : n ∈ ns ∨ n ≤ a) :
    n ≤ ns.foldl max a := by
  induction ns generalizing a with
  | nil => exact h.resolve_left List.not_mem_nil
  | cons m ns ih =>
    refine ih ?_
    rcases h with h | h
    · rcases List.mem_cons.1 h with rfl | h
      · exact .inr (Nat.le_max_right ..)
      · exact .inl h
    · exact .inr (Nat.le_trans h (Nat.le_max_left ..))

theorem foldl_max_cases (ns : List Nat) (a : Nat) : ns.foldl max a = a ∨ ns.foldl max a ∈ ns := by
  induction ns generalizing a with
  | nil => exact .inl rfl
  | cons n ns ih =>
    rw [List.foldl_cons, List.mem_cons]
    rcases ih (max a n) with h | h
    · rcases Nat.le_total a n with hle | hle
      · exact .inr (.inl (h.trans (Nat.max_eq_right hle)))
      · exact .inl (h.trans (Nat.max_eq_left hle))
    · exact .inr (.inr h)

theorem foldl_max_mem {ns : List Nat} (h : ns ≠ []) : ns.foldl max 0 ∈ ns := by
  rcases foldl_max_cases ns 0 with hzero | hmem
  · obtain ⟨n, ns, rfl⟩ := List.exists_cons_of_ne_nil h
    have hn : n ≤ 0 := hzero ▸ le_foldl_max (.inl List.mem_cons_self)
    rw [hzero, Nat.le_zero.1 hn]
    exact List.mem_cons_self
  · exact hmem

namespace Graph

namespace Linked

variable (k : g.Linked)

include k

theorem contains_of_mem_nodes (hs : g.Sound) (hx : x ∈ g.sharing.nodes) : g.contains x = true := by
  have hlive : ∀ {z st}, g.state? z = some st → g.contains z = true := fun hz => by
    obtain ⟨n, hn, -⟩ := Option.map_eq_some_iff.1 hz
    exact contains_iff.2 ⟨n, hn⟩
  obtain ⟨⟨o, m, place⟩, he, hend⟩ := Sharing.mem_nodes.1 hx
  cases place with
  | view offset =>
    obtain ⟨hst, hin, -⟩ := k.view he
    rcases hend with rfl | rfl
    · obtain ⟨n, hn, -⟩ := Result.bind_eq_ok.1 hin
      have hn := get_eq_ok.1 hn
      exact hs.live (.of_input hn ((input_eq_ok hn).1 hin))
    · exact hlive hst
  | slice i axis b e =>
    rcases hend with rfl | rfl
    · exact hlive (k.owner he).1
    · obtain ⟨st, hst, -⟩ := (k.writer he).1
      exact hlive hst

end Linked
end Graph

namespace Ready

variable (k : Ready g values)

include k

/-- Two nodes that write into one buffer have no offset in common. -/
theorem writers_disjoint (hxy : x ≠ y) (hconn : Sharing.Connected g.sharing.edges x y)
    (hx : ¬ g.IsOptimized x) (hy : ¬ g.IsOptimized y) {l l' : Layout} (hl : g.layout x = .ok l)
    (hl' : g.layout y = .ok l') {m m' : Nat} (hf : l.footprint = .ok m)
    (hf' : l'.footprint = .ok m') {index index' : List Nat} (hi : l.HasIndex index)
    (hi' : l'.HasIndex index') {o : Nat} (ho : l.offset index = .ok o) :
    l'.offset index' ≠ .ok o := by
  obtain ⟨root, hpath, hend, -⟩ := k.linked.rooted k.sound x
  have hroot : g.RootOf x root := ⟨hpath, hend⟩
  have hroot' := (k.linked.rootOf_of_connected hconn).1 hroot
  have hopt : ∀ {z i axis b e}, ⟨root, z, .slice i axis b e⟩ ∈ g.sharing.edges →
      g.IsOptimized root := fun he => ⟨root, 0, (k.linked.owner he).1⟩
  rcases k.linked.writer_cases k.sound hx hroot with rfl | ⟨i, axis, b, e, he⟩
  · rcases k.linked.writer_cases k.sound hy hroot' with rfl | ⟨j, axis', b', e', he'⟩
    · exact absurd rfl hxy
    · exact absurd (hopt he') hx
  rcases k.linked.writer_cases k.sound hy hroot' with rfl | ⟨j, axis', b', e', he'⟩
  · exact absurd (hopt he) hy
  -- both are slices of the root
  have hin := (k.linked.owner he).2.2
  have hin' := (k.linked.owner he').2.2
  obtain ⟨n, axis, output, extents, hn, hc⟩ := k.inPlace (k.linked.sliceOf he)
  have hix := (input_eq_ok hn).1 hin
  have hiy := (input_eq_ok hn).1 hin'
  rcases Nat.lt_trichotomy i j with hij | rfl | hij
  · exact k.slices_disjoint hn hc hij hix hiy hl hl' hf hf' hi hi' ho
  · exact absurd (Option.some.inj (hix.symm.trans hiy)) hxy
  · exact fun ho' => k.slices_disjoint hn hc hij hiy hix hl' hl hf' hf hi' hi ho' ho

end Ready

namespace BufferPlan

theorem measure_onlyOverflow {l : Layout} (hl : g.layout x = .ok l) (hf : l.footprint.OnlyOverflow) :
    (measure g x).OnlyOverflow := by
  obtain ⟨n, hn, -⟩ := layout_eq_ok.1 hl
  rw [measure, hl]
  refine Result.OnlyOverflow.bind (x := .ok l) (Result.onlyOverflow_ok l) fun l' hl' => ?_
  obtain rfl := Except.ok.inj hl'
  refine hf.bind fun _ _ => ?_
  rw [get_eq_ok.2 hn]
  exact Result.onlyOverflow_ok _

theorem buffer?_onlyOverflow {members : List NodeId}
    (h : ∀ x ∈ members, ∃ l, g.layout x = .ok l ∧ l.footprint.OnlyOverflow) :
    (buffer? g members).OnlyOverflow := by
  refine (Result.mapM_onlyOverflow fun x hx => ?_).bind fun measured _ => ?_
  · obtain ⟨l, hl, hf⟩ := h x hx
    exact measure_onlyOverflow hl hf
  cases members with
  | nil => exact Result.onlyOverflow_pure _
  | cons first rest =>
    obtain ⟨l, hl, -⟩ := h first List.mem_cons_self
    simp only [hl]
    exact Result.onlyOverflow_ok _

theorem measure_eq_ok {p : String × Nat} (h : measure g x = .ok p) :
    ∃ l, g.layout x = .ok l ∧ l.footprint = .ok p.2 := by
  obtain ⟨l, hl, h⟩ := Result.bind_eq_ok.1 h
  obtain ⟨n, hn, h⟩ := Result.bind_eq_ok.1 h
  obtain ⟨_, -, h⟩ := Result.bind_eq_ok.1 h
  obtain rfl := Except.ok.inj h
  exact ⟨l, hl, hn⟩

/-- What a buffer was made of. -/
theorem buffer?_eq_ok {members : List NodeId} {found : Option LogicalBuffer}
    (h : buffer? g members = .ok found) :
    (members = [] ∧ found = none) ∨ ∃ buffer, found = some buffer ∧ buffer.members = members ∧
      (∀ x ∈ members, ∃ l n, g.layout x = .ok l ∧ l.footprint = .ok n ∧ n ≤ buffer.elements) ∧
        ∃ x ∈ members, ∃ l, g.layout x = .ok l ∧ l.footprint = .ok buffer.elements := by
  obtain ⟨measured, hmeasured, h⟩ := Result.bind_eq_ok.1 h
  cases members with
  | nil =>
    obtain rfl := Except.ok.inj h
    exact .inl ⟨rfl, rfl⟩
  | cons first rest =>
    obtain ⟨l, -, h⟩ := Result.bind_eq_ok.1 h
    obtain rfl := Except.ok.inj h
    have hall := Result.mapM_eq_ok.1 hmeasured
    refine .inr ⟨_, rfl, rfl, fun x hx => ?_, ?_⟩
    · obtain ⟨i, hi, rfl⟩ := List.mem_iff_getElem.1 hx
      have hi' : i < measured.length := hall.length_eq ▸ hi
      obtain ⟨l, hl, hn⟩ := measure_eq_ok (hall.get hi hi')
      refine ⟨l, _, hl, hn, ?_⟩
      exact le_foldl_max (.inl (List.mem_map_of_mem (List.getElem_mem hi')))
    · have hne : measured.map (·.2) ≠ [] := by
        cases hall
        exact List.cons_ne_nil _ _
      obtain ⟨p, hp, he⟩ := List.mem_map.1 (foldl_max_mem hne)
      obtain ⟨x, hx, hmeasure⟩ := Result.exists_of_mem_mapM hmeasured hp
      exact ⟨x, hx, he ▸ measure_eq_ok hmeasure⟩

/-! ### Which nodes make up a buffer -/

variable {m : List NodeId}

theorem mem_memberSets : m ∈ memberSets g ↔ m ∈ g.sharing.groups ∨
    ∃ x ∈ g.order, (∀ group ∈ g.sharing.groups, x ∉ group) ∧ m = [x] := by
  simp only [memberSets, List.mem_append, List.mem_map, List.mem_filter, Bool.not_eq_true',
    List.any_eq_false, List.contains_eq_mem, decide_eq_true_eq]
  refine or_congr_right (exists_congr fun x => ?_)
  constructor
  · rintro ⟨⟨hx, hout⟩, rfl⟩
    exact ⟨hx, hout, rfl⟩
  · rintro ⟨hx, hout, rfl⟩
    exact ⟨⟨hx, hout⟩, rfl⟩

/-- The nodes of one buffer are connected. -/
theorem connected_of_mem (hm : m ∈ memberSets g) (hx : x ∈ m) (hy : y ∈ m) :
    Sharing.Connected g.sharing.edges x y := by
  rcases mem_memberSets.1 hm with hm | ⟨z, -, -, rfl⟩
  · rcases Sharing.mem_components hm with hm | ⟨z, -, rfl⟩
    · cases hm
    · exact (Sharing.mem_component.1 hx).symm.trans (Sharing.mem_component.1 hy)
  · rw [List.mem_singleton.1 hx, List.mem_singleton.1 hy]
    exact .refl

theorem contains_of_mem (hs : g.Sound) (hnodes : ∀ z ∈ g.sharing.nodes, g.contains z = true)
    (hm : m ∈ memberSets g) (hx : x ∈ m) : g.contains x = true := by
  rcases mem_memberSets.1 hm with hm | ⟨z, hz, -, rfl⟩
  · rcases Sharing.mem_components hm with hm | ⟨z, hz, rfl⟩
    · cases hm
    · rcases (Sharing.mem_component.1 hx).cases_tail with rfl | ⟨c, -, e, he, ⟨-, rfl⟩ | ⟨rfl, -⟩⟩
      · exact hnodes _ hz
      · exact hnodes _ (Sharing.mem_nodes.2 ⟨e, he, .inr rfl⟩)
      · exact hnodes _ (Sharing.mem_nodes.2 ⟨e, he, .inl rfl⟩)
  · rw [List.mem_singleton.1 hx]
    exact hs.mem_order.1 hz

theorem exists_memberSet (hs : g.Sound) (hx : g.contains x = true) :
    ∃ m ∈ memberSets g, x ∈ m := by
  by_cases hgroup : ∃ group ∈ g.sharing.groups, x ∈ group
  · obtain ⟨group, hmem, hin⟩ := hgroup
    exact ⟨group, mem_memberSets.2 (.inl hmem), hin⟩
  · refine ⟨[x], mem_memberSets.2 (.inr ⟨x, hs.mem_order.2 hx, ?_, rfl⟩), List.mem_singleton_self x⟩
    exact fun group hmem hin => hgroup ⟨group, hmem, hin⟩

/-- A plan is made unless the size of a layout is missing, which is an overflow. -/
theorem ofGraph_onlyOverflow_of_layouts (hs : g.Sound)
    (hnodes : ∀ z ∈ g.sharing.nodes, g.contains z = true)
    (h : ∀ x, g.contains x = true → ∃ l, g.layout x = .ok l ∧ l.footprint.OnlyOverflow) :
    (ofGraph g).OnlyOverflow :=
  (Result.mapM_onlyOverflow fun _ hm => buffer?_onlyOverflow fun x hx =>
    h x (contains_of_mem hs hnodes hm hx)).bind fun _ _ => Result.onlyOverflow_pure _

/-- A plan is made unless a size overflows. -/
theorem ofGraph_onlyOverflow (k : Ready g values) : (ofGraph g).OnlyOverflow := by
  refine ofGraph_onlyOverflow_of_layouts k.sound
    (fun z hz => k.linked.contains_of_mem_nodes k.sound hz) fun x hx => ?_
  obtain ⟨l, hl⟩ := k.layout_ok hx
  exact ⟨l, hl, Layout.footprint_onlyOverflow (k.static hl) (k.settled hl) (k.valid hl)⟩

theorem buffer?_of_mem_buffers (h : ofGraph g = .ok plan) (hb : buffer ∈ plan.buffers) :
    ∃ members ∈ memberSets g, buffer? g members = .ok (some buffer) := by
  obtain ⟨found, hfound, h⟩ := Result.bind_eq_ok.1 h
  obtain rfl := Except.ok.inj h
  obtain ⟨o, ho, hid⟩ := List.mem_filterMap.1 hb
  obtain rfl : o = some buffer := hid
  have hall := Result.mapM_eq_ok.1 hfound
  obtain ⟨i, hi, heq⟩ := List.mem_iff_getElem.1 ho
  have hi' : i < (memberSets g).length := hall.length_eq ▸ hi
  have hbuffer := hall.get hi' hi
  simp only [List.get_eq_getElem, heq] at hbuffer
  exact ⟨_, List.getElem_mem hi', hbuffer⟩

/-- The buffers of a plan: one for each set of nodes, with room for their layouts. -/
theorem mem_buffers (h : ofGraph g = .ok plan) (hb : buffer ∈ plan.buffers) :
    buffer.members ∈ memberSets g ∧ ∀ x ∈ buffer.members, ∃ l n, g.layout x = .ok l ∧
      l.footprint = .ok n ∧ n ≤ buffer.elements := by
  obtain ⟨members, hmem, hbuffer⟩ := buffer?_of_mem_buffers h hb
  obtain ⟨-, hnone⟩ | ⟨buffer', hsome, hmembers, hroom, -⟩ := buffer?_eq_ok hbuffer
  · cases hnone
  · obtain rfl := Option.some.inj hsome
    rw [hmembers]
    exact ⟨hmem, hroom⟩

/-- No buffer is larger than its largest member. -/
theorem exists_largest (h : ofGraph g = .ok plan) (hb : buffer ∈ plan.buffers) :
    ∃ x ∈ buffer.members, ∃ l, g.layout x = .ok l ∧ l.footprint = .ok buffer.elements := by
  obtain ⟨members, -, hbuffer⟩ := buffer?_of_mem_buffers h hb
  obtain ⟨-, hnone⟩ | ⟨buffer', hsome, hmembers, -, hlargest⟩ := buffer?_eq_ok hbuffer
  · cases hnone
  · obtain rfl := Option.some.inj hsome
    rwa [hmembers]

theorem elements_le {bound : Nat}
    (hbound : ∀ {x l n}, g.layout x = .ok l → l.footprint = .ok n → n ≤ bound)
    (h : ofGraph g = .ok plan) (hb : buffer ∈ plan.buffers) : buffer.elements ≤ bound := by
  obtain ⟨x, -, l, hl, hn⟩ := exists_largest h hb
  exact hbound hl hn

/-- Every node is bound to a buffer. -/
theorem exists_bufferOf? (hs : g.Sound) (h : ofGraph g = .ok plan) (hx : g.contains x = true) :
    ∃ buffer, plan.bufferOf? x = some buffer := by
  obtain ⟨found, hfound, h⟩ := Result.bind_eq_ok.1 h
  obtain rfl := Except.ok.inj h
  obtain ⟨m, hm, hxm⟩ := exists_memberSet hs hx
  have hall := Result.mapM_eq_ok.1 hfound
  obtain ⟨i, hi, rfl⟩ := List.mem_iff_getElem.1 hm
  have hi' : i < found.length := hall.length_eq ▸ hi
  have hbuffer := hall.get hi hi'
  simp only [List.get_eq_getElem] at hbuffer
  obtain ⟨hnil, -⟩ | ⟨buffer, hsome, hmembers, -⟩ := buffer?_eq_ok hbuffer
  · rw [hnil] at hxm
    cases hxm
  · rw [← Option.isSome_iff_exists, bufferOf?, List.find?_isSome]
    refine ⟨buffer, List.mem_filterMap.2 ⟨_, List.getElem_mem hi', hsome⟩, ?_⟩
    simpa [hmembers] using hxm

theorem mem_of_bufferOf? (h : plan.bufferOf? x = some buffer) :
    buffer ∈ plan.buffers ∧ x ∈ buffer.members :=
  ⟨List.mem_of_find?_eq_some h, by simpa using List.find?_some h⟩

end BufferPlan

/-- No two kernels of an execution write the same element. Every node of a compiled program is bound
to a buffer that has room for all elements of its layout, and two nodes that run their kernels on one
buffer write different elements of it; a plan is missing only where a size overflows. -/
theorem Graph.Built.kernels_disjoint {b r : Graph} (hb : b.Built) {config : BuildConfig}
    {p : Program} (hp : Program.build config b = .ok p) {tensors : List (NodeId × Tensor)}
    (hr : p.graph.resolve tensors = (r, .ok values)) {report : RecheckReport}
    (h : r.recheck .standard = (g, .ok report))
    (hno : BufferPlan.ofGraph g ≠ .error (.fault .overflow)) :
    ∃ plan, BufferPlan.ofGraph g = .ok plan ∧
      (∀ x, g.contains x = true → ∃ buffer l, plan.bufferOf? x = some buffer ∧
        g.layout x = .ok l ∧ ∀ index, l.HasIndex index →
          ∃ offset, l.offset index = .ok offset ∧ offset < buffer.elements) ∧
      ∀ x y buffer, x ≠ y → ¬ g.IsOptimized x → ¬ g.IsOptimized y →
        plan.bufferOf? x = some buffer → plan.bufferOf? y = some buffer →
          ∀ l l', g.layout x = .ok l → g.layout y = .ok l' →
            ∀ index index', l.HasIndex index → l'.HasIndex index' →
              l.offset index ≠ l'.offset index' := by
  obtain ⟨b₀, c⟩ := hb.compiled hp
  have k := c.ready (c.sound'.resolved hr) h
  obtain ⟨plan, hplan⟩ := (BufferPlan.ofGraph_onlyOverflow k).eq_ok hno
  have hroom : ∀ {x buffer}, plan.bufferOf? x = some buffer → ∃ l n, g.layout x = .ok l ∧
      l.footprint = .ok n ∧ n ≤ buffer.elements := fun hx =>
    (BufferPlan.mem_buffers hplan (BufferPlan.mem_of_bufferOf? hx).1).2 _
      (BufferPlan.mem_of_bufferOf? hx).2
  refine ⟨plan, hplan, fun x hx => ?_, ?_⟩
  · obtain ⟨buffer, hbuffer⟩ := BufferPlan.exists_bufferOf? k.sound hplan hx
    obtain ⟨l, n, hl, hn, hle⟩ := hroom hbuffer
    refine ⟨buffer, l, hbuffer, hl, fun index hi => ?_⟩
    obtain ⟨o, ho, hlt⟩ := Layout.offset_lt (k.valid hl) hn hi
    exact ⟨o, ho, Nat.lt_of_lt_of_le hlt hle⟩
  · intro x y buffer hxy hx hy hbx hby l l' hl hl' index index' hi hi' he
    obtain ⟨hmem, hxm⟩ := BufferPlan.mem_of_bufferOf? hbx
    have hconn := BufferPlan.connected_of_mem (BufferPlan.mem_buffers hplan hmem).1 hxm
      (BufferPlan.mem_of_bufferOf? hby).2
    obtain ⟨l₁, n, hl₁, hn, -⟩ := hroom hbx
    obtain ⟨l₂, n', hl₂, hn', -⟩ := hroom hby
    obtain rfl := Except.ok.inj (hl.symm.trans hl₁)
    obtain rfl := Except.ok.inj (hl'.symm.trans hl₂)
    obtain ⟨o, ho, -⟩ := Layout.offset_lt (k.valid hl) hn hi
    exact k.writers_disjoint hxy hconn hx hy hl hl' hn hn' hi hi' ho (he ▸ ho)

/-- The sample compiled. -/
def sampleProgram : Program :=
  ⟨((Pass.fusing .standard).run .standard Graph.inferredSample).1, .standard, none⟩

/-- The sample executed up to the kernels. -/
def preparedSample : Graph :=
  ((sampleProgram.graph.resolve [(0, ⟨[2, 2], .f32, List.replicate 16 0⟩)]).1.recheck .standard).1

/-- The transposes of the sample write the two halves of one buffer. -/
theorem kernels_disjoint_sample : ∃ plan buffer, BufferPlan.ofGraph preparedSample = .ok plan ∧
    plan.bufferOf? 1 = some buffer ∧ plan.bufferOf? 2 = some buffer ∧
    ∀ l l', preparedSample.layout 1 = .ok l → preparedSample.layout 2 = .ok l' →
      ∀ index index', l.HasIndex index → l'.HasIndex index' → l.offset index ≠ l'.offset index' := by
  obtain ⟨plan, hplan, -, hdisjoint⟩ := built_sample.kernels_disjoint
    (show Program.build .standard sample = .ok sampleProgram from rfl)
    (show sampleProgram.graph.resolve [(0, ⟨[2, 2], .f32, List.replicate 16 0⟩)] = (_, .ok _)
      from rfl) (show _ = (preparedSample, _) from rfl) (by nofun)
  have hone : plan.bufferOf? 1 = plan.buffers[0]? := by
    obtain rfl := Except.ok.inj (hplan.symm.trans rfl)
    rfl
  have htwo : plan.bufferOf? 2 = plan.buffers[0]? := by
    obtain rfl := Except.ok.inj (hplan.symm.trans rfl)
    rfl
  obtain ⟨buffer, hbuffer⟩ : ∃ buffer, plan.buffers[0]? = some buffer := by
    obtain rfl := Except.ok.inj (hplan.symm.trans rfl)
    exact ⟨_, rfl⟩
  refine ⟨plan, buffer, hplan, hone.trans hbuffer, htwo.trans hbuffer, ?_⟩
  refine hdisjoint 1 2 buffer (by decide) ?_ ?_ (hone.trans hbuffer) (htwo.trans hbuffer)
  · rintro ⟨into, offset, hst⟩
    cases hst
  · rintro ⟨into, offset, hst⟩
    cases hst

end BufferFusion
