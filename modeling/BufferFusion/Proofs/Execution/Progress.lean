import BufferFusion.Proofs.Execution.Equivalence
import BufferFusion.Proofs.Execution.Supplied
import BufferFusion.Proofs.Kernel.Answers

/-!
# Executions that answer

Once the shapes of a compiled graph without fully connected layers resolve, an execution answers
unless a size overflows or an allocation is too large. What can go wrong is a reshape to no dims
whose pattern nobody could read: it is not compared with the number of elements that it is given.
-/
namespace BufferFusion

open Graph Result

namespace Infer.Yields

variable {q : Option (List Float)} {a l : Layout} {rest : List Layout}

theorem volume_reorder {format : Format} {element : ElementType}
    (h : Yields q (.reorder format element) (a :: rest) l) : l.shape.volume = a.shape.volume := by
  cases h with
  | reorder hfit => exact Shape.volume_fit hfit

/-- The sizes of a permuted tensor are those of its axes. -/
theorem permute_sizes {order dims sizes : List Nat} (h : Yields q (.permute order) (a :: rest) l)
    (ha : a.shape.sizes? = some dims) (hl : l.shape.sizes? = some sizes) :
    List.Forall₂ (fun axis n => dims[axis]? = some n) order sizes := by
  cases h with
  | permute _ _ =>
    have hsame : order.map (fun axis => a.shape.dims.getD axis .unknown) = sizes.map .known :=
      Shape.dims_of_sizes? hl
    have hall : List.Forall₂ (fun axis n => a.shape.dims.getD axis .unknown = Dim.known n) order
        sizes := by
      rw [← List.forall₂_map_left_iff (f := fun axis => a.shape.dims.getD axis .unknown)
        (R := fun d n => d = Dim.known n), hsame, List.forall₂_map_left_iff]
      exact List.forall₂_same.2 fun n _ => rfl
    refine hall.imp fun axis n hn => ?_
    rw [Shape.dims_of_sizes? ha, List.getD_eq_getElem?_getD, List.getElem?_map] at hn
    cases hd : dims[axis]? with
    | none =>
      rw [hd] at hn
      cases hn
    | some m =>
      rw [hd] at hn
      exact congrArg some (Dim.known.inj hn)

end Infer.Yields

/-- What is not a source reads at least one input. -/
theorem Operation.pos_of_takes {op : Operation} {count : Nat} (h : op.takes count = true)
    (hsource : op.declared? = none) : 0 < count := by
  cases op with
  | input | constant => cases hsource
  | reshape target => cases target <;> simp [takes] at h <;> omega
  | _ => simp [takes] at h; omega

variable {b f g r : Graph} {bd bd' : Bindings} {values : InputValues} {n : Node} {l : Layout}
  {id x : NodeId} {done ids : List NodeId}

/-! ### Kernels -/

theorem List.forall₂_join {α β γ : Type} {R : α → γ → Prop} {S : β → γ → Prop} {as : List α}
    {bs : List β} (h : List.Forall₂ (fun a b => ∃ c, R a c ∧ S b c) as bs) :
    ∃ cs, List.Forall₂ R as cs ∧ List.Forall₂ S bs cs := by
  induction h with
  | nil => exact ⟨[], .nil, .nil⟩
  | cons h _ ih =>
    obtain ⟨c, hr, hs⟩ := h
    obtain ⟨cs, hrs, hss⟩ := ih
    exact ⟨c :: cs, .cons hr hrs, .cons hs hss⟩

namespace Ready

variable (k : Ready g values) (hb : g.Housed bd)

include k hb

/-- An input is read with a value for each element. -/
theorem readInput_answers (hn : g.node? id = some n) {slot : Nat} {a : NodeId}
    (ha : n.inputs[slot]? = some a) (hl : g.layout a = .ok l) :
    (Run.readInput g bd id slot).Answers fun lv => ∃ (xs : List Float) (sizes : List Nat),
      l.shape.sizes? = some sizes ∧ lv = ⟨xs.toArray, sizes⟩ ∧ xs.length = sizes.prod := by
  obtain ⟨m, hm, hfits⟩ := hb.room (k.sound.live (.of_input hn ha))
  obtain ⟨size, hf, hle⟩ := hfits l hl
  obtain ⟨sizes, hs⟩ := k.exists_sizes hl
  rw [Run.readInput, (input_eq_ok hn).2 ha]
  simp only [bind, Except.bind, hl, hm]
  refine (Memory.read_answers (k.valid hl) (k.static hl) (k.settled hl) hf hle).bind
    fun xs _ hxs => ?_
  simp only [Layout.sizes_eq_ok.2 hs]
  rw [Shape.volume_sizes hs] at hxs
  exact answers_ok ⟨xs, sizes, hs, rfl, hxs⟩

omit hb in
/-- The inputs of a concatenation have its dims but for the axis, and there their extents add up. -/
theorem concatenated (hn : g.node? id = some n) {axis : Nat} (hop : n.op = .concatenation axis)
    (hl : g.layout id = .ok l) {sizes : List Nat} (hs : l.shape.sizes? = some sizes) :
    ∃ ins, g.Lays n.inputs ins ∧
      (∀ la ∈ ins, ∀ dims, la.shape.sizes? = some dims → dims.length = sizes.length ∧
        (∃ e, dims[axis]? = some e) ∧ ∀ j, j ≠ axis → dims[j]? = sizes[j]?) ∧
      ∀ es, List.Forall₂ (fun la e => la.shape.dims[axis]? = some (.known e)) ins es →
        sizes[axis]? = some es.sum := by
  obtain ⟨ins, l', hins, hl', hy⟩ := k.inferred hn
  obtain rfl := Except.ok.inj (hl.symm.trans hl')
  rw [hop] at hy
  have hout : l.bare.shape.dims = sizes.map .known := Shape.dims_of_sizes? hs
  have hrank : sizes.length = l.bare.rank := Layout.length_sizes hs
  obtain ⟨haxis, hlike⟩ := hy.concatenation_inputs
  obtain ⟨hoff, hsum⟩ := hy.concatenation_dims fun a ha => by
    obtain ⟨la, hla, rfl⟩ := List.mem_map.1 ha
    obtain ⟨y, -, hy⟩ := hins.exists_of_mem hla
    exact show la.isStatic = true from k.static hy
  refine ⟨ins, hins, fun la hla dims hdims => ?_, fun es hes => ?_⟩
  · have hmem : la.bare ∈ ins.map Layout.bare := List.mem_map_of_mem hla
    have hknown : la.bare.shape.dims = dims.map .known := Shape.dims_of_sizes? hdims
    have hlen : dims.length = l.bare.rank := by
      rw [← (hlike _ hmem).1]
      exact Layout.length_sizes hdims
    refine ⟨hlen.trans hrank.symm, ⟨_, List.getElem?_eq_getElem (hlen ▸ haxis)⟩, fun j hj => ?_⟩
    have hsame := hoff _ hmem j hj
    rw [hknown, hout] at hsame
    exact Dim.getElem?_map_known_congr hsame
  · have htotal := hsum es (List.forall₂_map_left_iff.2 hes)
    rw [hout] at htotal
    exact Dim.getElem?_map_known.1 htotal

/-- The kernel of a concatenation answers. -/
theorem concatenate_answers (hn : g.node? id = some n) {axis : Nat} (hop : n.op = .concatenation axis)
    (hl : g.layout id = .ok l) :
    (Run.compute g bd values n l).Answers fun xs => xs.length = l.shape.volume := by
  obtain rfl := k.sound.id_eq hn
  obtain ⟨sizes, hs⟩ := k.exists_sizes hl
  obtain ⟨ins, hins, hlike, hsum⟩ := k.concatenated hn hop hl hs
  -- what is read in a slot is a part of the output
  have hpart : ∀ slot ∈ List.range n.inputs.length, (Run.readInput g bd n.id slot).Answers fun lv =>
      ∀ la, ins[slot]? = some la → ∃ e, Kernel.IsPart axis sizes lv e ∧
        la.shape.dims[axis]? = some (.known e) := by
    intro slot hslot
    have ha := List.getElem?_eq_getElem (List.mem_range.1 hslot)
    obtain ⟨la, hla⟩ := k.layout_ok (k.sound.live (.of_input hn ha))
    refine (k.readInput_answers hb hn ha hla).mono fun lv _ hlv la' hla' => ?_
    obtain rfl := Option.some.inj (hla'.symm.trans (hins.getElem? ha hla))
    obtain ⟨xs, dims, hdims, rfl, hx⟩ := hlv
    obtain ⟨hlen, ⟨e, he⟩, hoff⟩ := hlike _ (List.mem_of_getElem? hla') dims hdims
    refine ⟨e, ⟨xs, dims, rfl, hx, hlen, he, hoff⟩, ?_⟩
    rw [Shape.dims_of_sizes? hdims]
    exact Dim.getElem?_map_known.2 he
  rw [Run.compute, hop]
  refine (mapM_answers hpart).bind fun parts _ hparts => ?_
  have hlen : parts.length = ins.length := by
    rw [← hparts.length_eq, List.length_range]
    exact hins.length_eq
  obtain ⟨es, hes, hextents⟩ : ∃ es, List.Forall₂ (Kernel.IsPart axis sizes) parts es ∧
      List.Forall₂ (fun la e => la.shape.dims[axis]? = some (.known e)) ins es := by
    refine BufferFusion.List.forall₂_join (List.forall₂_of_length_eq_of_get hlen fun i hi hi' => ?_)
    have hslot := hparts.get (by rwa [hparts.length_eq]) hi
    rw [List.get_eq_getElem, List.getElem_range] at hslot
    exact hslot _ (List.getElem?_eq_getElem hi')
  simp only [Layout.sizes_eq_ok.2 hs]
  refine (Kernel.concatenate_answers hes (hsum es hextents)).mono fun ys _ hys => ?_
  rw [Shape.volume_sizes hs, Size.prod_of_product hys]

/-- A kernel that reads one input goes on with a value for each element of it. -/
theorem first_answers (hn : g.node? id = some n) (hl : g.layout id = .ok l)
    (hsource : n.op.declared? = none) {f : Logical → Result (List Float)} {P : List Float → Prop}
    (hf : ∀ into input rest (xs : List Float) (dims : List Nat), g.input id 0 = .ok into →
      g.layout into = .ok input →
        Infer.Yields (g.pattern? values n) n.op (input.bare :: rest) l.bare →
          input.shape.sizes? = some dims → xs.length = dims.prod →
            (f ⟨xs.toArray, dims⟩).Answers P) :
    (Run.readInput g bd id 0 >>= f).Answers P := by
  have ha := List.getElem?_eq_getElem (Operation.pos_of_takes (k.sound.takes hn) hsource)
  obtain ⟨input, hi⟩ := k.layout_ok (k.sound.live (.of_input hn ha))
  have hin := (input_eq_ok hn).2 ha
  obtain ⟨rest, hy⟩ := k.yields hn hin hi hl
  refine (k.readInput_answers hb hn ha hi).bind fun lv _ hlv => ?_
  obtain ⟨xs, dims, hdims, rfl, hx⟩ := hlv
  exact hf _ input rest xs dims hin hi hy hdims hx

/-- A kernel answers a value for each element of its output. -/
theorem compute_answers (hsup : g.Supplied values) (hno : ¬ g.ScalarOfMany id)
    (hn : g.node? id = some n) (hl : g.layout id = .ok l) :
    (Run.compute g bd values n l).Answers fun xs => xs.length = l.shape.volume := by
  obtain rfl := k.sound.id_eq hn
  obtain ⟨sizes, hs⟩ := k.exists_sizes hl
  cases hop : n.op with
  | input d =>
    obtain ⟨xs, hlook, hx⟩ := hsup.input hn hop hl
    rw [Run.compute, hop]
    simp only [hlook]
    exact answers_ok hx
  | constant d xs =>
    rw [Run.compute, hop]
    exact answers_ok (hsup.constant hn hop hl)
  | fullyConnected => exact absurd hop (hsup.plain hn)
  | concatenation axis => exact k.concatenate_answers hb hn hop hl
  | permute order =>
    rw [Run.compute, hop]
    refine k.first_answers hb hn hl (by rw [hop]; rfl) fun _ input rest xs dims _ _ hy hdims hx => ?_
    rw [hop] at hy
    obtain ⟨hlen, hbij⟩ := hy.permute_order
    have hlen : order.length = dims.length := hlen.trans (Layout.length_sizes hdims).symm
    refine (Kernel.permute_answers hx hbij hlen (hy.permute_sizes hdims hs)).mono fun ys _ hys => ?_
    rw [Shape.volume_sizes hs, Size.prod_of_product hys]
  | reshape target copyZeros =>
    rw [Run.compute, hop]
    refine k.first_answers hb hn hl (by rw [hop]; rfl)
      fun into input rest xs dims hin hi hy hdims hx => ?_
    rw [hop] at hy
    have hsame : input.shape.volume = l.shape.volume := by
      by_contra hne
      have hstatic : input.isStatic = true ∧ l.isStatic = true := ⟨k.static hi, k.static hl⟩
      obtain ⟨hrank, hmany⟩ := (hy.volume_reshape hstatic.1 hstatic.2).1 hne
      exact hno ⟨hn, hop, hl, hrank, hin, hi, hmany⟩
    exact answers_ok (hx.trans ((Shape.volume_sizes hdims).symm.trans hsame))
  | crop offsets lengths =>
    rw [Run.compute, hop]
    refine k.first_answers hb hn hl (by rw [hop]; rfl) fun _ input rest xs dims _ _ hy hdims hx => ?_
    rw [hop] at hy
    obtain ⟨ho, hlen, -⟩ := hy.crop_lengths
    obtain ⟨hfits, hshape⟩ := hy.crop_fits
    have hrank : dims.length = input.bare.rank := Layout.length_sizes hdims
    rw [show input.bare.shape.dims = dims.map .known from Shape.dims_of_sizes? hdims] at hfits
    have hshape : l.shape = .ofSizes lengths := hshape
    refine (Kernel.crop_answers hx (ho.trans hlen.symm) fun index hindex =>
      Infer.lt_of_fitsWindow (ho.trans hrank.symm) (hlen.trans hrank.symm) hfits hindex).mono
        fun ys _ hys => ?_
    rw [hshape, Shape.volume_sizes (Shape.sizes?_ofSizes lengths), Size.prod_of_product hys]
  | reorder format element =>
    rw [Run.compute, hop]
    refine k.first_answers hb hn hl (by rw [hop]; rfl) fun _ input rest xs dims _ _ hy hdims hx => ?_
    rw [hop] at hy
    have hsame : l.shape.volume = input.shape.volume := hy.volume_reorder
    refine answers_ok ?_
    rw [hsame, Shape.volume_sizes hdims, ← hx]
    simp

variable (hsup : g.Supplied values) (hno : ∀ x, ¬ g.ScalarOfMany x)

include hsup hno

/-- Running a node answers, and leaves the memories where they are. -/
theorem node_answers (hlive : g.contains id = true) :
    (Run.node g values id bd).2.Answers (fun _ => True) ∧ g.Housed (Run.node g values id bd).1 := by
  obtain ⟨n, hn⟩ := contains_iff.1 hlive
  by_cases hs : n.state.isOptimized = true
  · rw [Run.node_of_optimized hn hs]
    exact ⟨answers_ok trivial, hb⟩
  obtain ⟨l, hl⟩ := k.layout_ok hlive
  obtain ⟨m, hm, hfits⟩ := hb.room hlive
  obtain ⟨size, hf, hle⟩ := hfits l hl
  obtain ⟨number, hnumber, -⟩ := Bindings.memory?_eq_some.1 hm
  have hget : g.get id = .ok n := get_eq_ok.2 hn
  have hs : n.state.isOptimized = false := by simpa using hs
  simp only [Run.node, hget, hs, hl, Bool.false_eq_true, if_false, bind, Except.bind]
  obtain ⟨xs, hxs, hlen⟩ | he | he := k.compute_answers hb hsup (hno id) hn hl
  · simp only [hxs, hnumber, hm, pure, Except.pure]
    refine ⟨Memory.write_answers (k.valid hl) (k.static hl) (k.settled hl) hf hle hlen, ?_⟩
    exact hb.setMemory hnumber hm (Memory.size_write ..)
  · simp only [he]
    exact ⟨.inr (.inl rfl), hb⟩
  · simp only [he]
    exact ⟨.inr (.inr rfl), hb⟩

theorem along_answers (hlive : ∀ x ∈ ids, g.contains x = true) :
    (Run.along g values ids bd).2.Answers (fun _ => True) ∧
      g.Housed (Run.along g values ids bd).1 := by
  induction ids generalizing bd with
  | nil => exact ⟨answers_ok trivial, hb⟩
  | cons id ids ih =>
    rw [List.forall_mem_cons] at hlive
    obtain ⟨hnode, hb'⟩ := k.node_answers hb hsup hno hlive.1
    rw [Run.along]
    split
    · next h =>
      rw [h] at hnode hb'
      refine ⟨?_, hb'⟩
      obtain ⟨_, hok, -⟩ | he := hnode
      · cases hok
      · exact .inr he
    · next h =>
      rw [h] at hb'
      exact ih hb' hlive.2

/-- A run of the kernels answers. -/
theorem run_answers : (g.run bd values).2.Answers (fun _ => True) ∧
    g.Housed (g.run bd values).1 :=
  k.along_answers hb hsup hno k.sound.ordered.live

end Ready

/-! ### Reshapes that cannot run -/

/-- A reshape to no dims of an input that has not one element is not optimized. -/
theorem Ready.not_optimized_of_scalarOfMany (k : Ready g values) (h : g.ScalarOfMany x) :
    ¬ g.IsOptimized x := by
  intro hx
  obtain ⟨hn, hop, hl, hrank, hin, hi, hmany⟩ := h
  obtain ⟨p, hr⟩ := k.viewReason hn (by simp [hop]) hx hin hi hl
  rw [hop] at hr
  obtain ⟨hplain, hflat, hsame⟩ := hr
  have hvolume := Fuse.volume_eq_of_isStatic hplain hflat hsame (k.static hi) (k.static hl)
  exact hmany (hvolume.trans (Shape.volume_of_rank_eq_zero hrank))

/-- Nor does its kernel answer, for it writes as many values as it reads. -/
theorem Ready.node_ne_ok_of_scalarOfMany (k : Ready g values) (h : g.ScalarOfMany x) :
    Run.node g values x bd ≠ (bd', .ok ()) := by
  intro hrun
  have hopt := k.not_optimized_of_scalarOfMany h
  obtain ⟨hn, hop, hl, hrank, hin, hi, hmany⟩ := h
  obtain rfl := k.sound.id_eq hn
  obtain ⟨_, xs, number, m, m', hl', hxs, -, -, hwrite, -⟩ :=
    Run.node_eq_ok hn hopt hrun
  obtain rfl := Except.ok.inj (hl.symm.trans hl')
  rw [Run.compute, hop] at hxs
  obtain ⟨lv, hlv, hxs⟩ := Result.bind_eq_ok.1 hxs
  obtain ⟨a, la, ma, ys, dims, ha, hla, -, hread, hdims, rfl⟩ := readInput_eq_ok.1 hlv
  obtain rfl := Except.ok.inj hxs
  obtain rfl := Except.ok.inj (hin.symm.trans ha)
  obtain rfl := Except.ok.inj (hi.symm.trans hla)
  obtain ⟨dims', _, count, hdims', -, hcount, -, hlen, -⟩ := Memory.read_eq_ok.1 hread
  obtain rfl := Option.some.inj (hdims.symm.trans hdims')
  obtain ⟨sizes, _, hsizes, hcount', -⟩ := Memory.write_eq_ok.1 hwrite
  have hvolume := (Shape.volume_sizes hsizes).trans (Size.prod_of_product hcount')
  refine hmany ?_
  rw [Shape.volume_sizes hdims, Size.prod_of_product hcount, ← hlen, ← hvolume]
  exact Shape.volume_of_rank_eq_zero hrank

/-- Each node of a run that answers has answered. -/
theorem Run.exists_of_along (h : Run.along g values ids bd = (bd', .ok ())) (hx : x ∈ ids) :
    ∃ b₁ b₂, Run.node g values x b₁ = (b₂, .ok ()) := by
  induction ids generalizing bd with
  | nil => cases hx
  | cons id ids ih =>
    simp only [Run.along] at h
    split at h
    · cases (Prod.mk.inj h).2
    next b₁ hnode =>
    rcases List.mem_cons.1 hx with rfl | hx
    · exact ⟨bd, b₁, hnode⟩
    · exact ih h hx

/-! ### Executions -/

/-- Without a limit an allocation answers. -/
theorem BufferPlan.allocateFrom_answers {buffers : List LogicalBuffer} {a : Allocator}
    (hlimit : a.limit = none) :
    (allocateFrom buffers a bd).2.Answers fun _ => True := by
  induction buffers generalizing a bd with
  | nil => exact answers_ok trivial
  | cons buffer buffers ih =>
    have hfree : a.exceeded? buffer.elements = none := by
      rw [Allocator.exceeded?, hlimit]
      rfl
    simp only [allocateFrom, Allocator.allocate, hfree, Memory.zeroed]
    obtain ⟨_, hr, -⟩ | he | he := Size.reserve_answers 8 buffer.elements
    · simp only [hr, Except.bind, Bind.bind]
      exact ih hlimit
    · simp only [he, Except.bind, Bind.bind]
      exact .inr (.inl rfl)
    · simp only [he, Except.bind, Bind.bind]
      exact .inr (.inr rfl)

/-- The outputs of a run are found. -/
theorem Ready.outputs_ok {e : Execution} (k : Ready e.graph values) (hb : e.graph.Housed e.bindings) :
    ∃ outputs, e.outputs = .ok outputs := by
  obtain ⟨found, hfound⟩ : ∃ found, List.Forall₂ (fun x o => e.output x = .ok o) e.graph.outputs
      found := by
    have hall : ∀ x ∈ e.graph.outputs, ∃ o, e.output x = .ok o := by
      intro x hx
      have hlive := k.sound.live_of_mem_outputs hx
      obtain ⟨n, hn⟩ := contains_iff.1 hlive
      obtain ⟨l, hl⟩ := k.layout_ok hlive
      obtain ⟨m, hm, -⟩ := hb.room hlive
      exact ⟨_, Execution.output_eq_ok hn hm hl⟩
    generalize e.graph.outputs = ids at hall
    induction ids with
    | nil => exact ⟨[], .nil⟩
    | cons x ids ih =>
      rw [List.forall_mem_cons] at hall
      obtain ⟨⟨o, ho⟩, hall⟩ := hall
      obtain ⟨found, hfound⟩ := ih hall
      exact ⟨o :: found, .cons ho hfound⟩
  exact ⟨_, Execution.outputs_eq_ok.2 ⟨found, hfound, rfl⟩⟩

namespace Network

variable {w : Network} {report : RecheckReport} {plan : BufferPlan}

/-- An execution answers if its allocation, its kernels and its outputs do. -/
theorem execute_answers (hresolve : w.program.graph.resolve w.inputs = (r, .ok values))
    (hrecheck : r.recheck .standard = (g, .ok report)) (hplan : BufferPlan.ofGraph g = .ok plan)
    (halloc : (plan.allocate w.allocator).2.Answers fun _ => True)
    (hrun : ∀ a bd, plan.allocate w.allocator = (a, .ok bd) →
      (g.run bd values).2.Answers (fun _ => True) ∧
        ∃ outputs, Execution.outputs ⟨g, (g.run bd values).1, report⟩ = .ok outputs) :
    w.execute.2.Answers fun _ => True := by
  cases hx : plan.allocate w.allocator with
  | mk a allocated =>
  rw [hx] at halloc
  simp only [execute, prepare, hresolve, hrecheck, hplan, hx, bind, Except.bind, pure, Except.pure]
  obtain ⟨bd, rfl, -⟩ | rfl | rfl := halloc
  · obtain ⟨hdone, outputs, houts⟩ := hrun a bd hx
    obtain ⟨_, hok, -⟩ | he | he := hdone
    · simp only [hok, houts]
      exact answers_ok trivial
    · simp only [he]
      exact .inr (.inl rfl)
    · simp only [he]
      exact .inr (.inr rfl)
  · exact .inr (.inl rfl)
  · exact .inr (.inr rfl)

end Network

variable {tensors : List (NodeId × Tensor)}

/-- A recheck finds the same reshapes to scalars as there were before. -/
theorem Rechecked.scalarOfMany_iff (k : Rechecked r g done) (hr : f.Resolved tensors values r) :
    g.ScalarOfMany x ↔ r.ScalarOfMany x := by
  have w := k.rechecking.wiring
  constructor
  · exact fun h => h.congr w fun y l hl => ⟨_, (k.layout_resolved hr hl).1, rfl⟩
  · refine fun h => h.congr w.symm fun y l hl => ?_
    obtain ⟨padding, hl', -⟩ := k.padded.layout hl
    exact ⟨_, hl', rfl⟩

/-- Once the shapes of a compiled graph without fully connected layers resolve, an execution without
a limit on memory answers, unless a size overflows or is more than a vector holds: but for reshapes to
no dims of an input that has not exactly one element, and with one of those it does not answer. -/
theorem Graph.Built.executes (hb : b.Built)
    (hplain : ∀ x n, b.node? x = some n → n.op ≠ .fullyConnected) {config : BuildConfig}
    {p : Program} (hp : Program.build config b = .ok p) {w : Network} (hw : w.program = p)
    (hlimit : w.allocator.limit = none)
    (ht : ∀ id t, w.inputs.lookup id = some t → t.Filled)
    (hresolve : p.graph.resolve w.inputs = (r, .ok values)) :
    ((∀ x, ¬ r.ScalarOfMany x) → w.execute.2.Answers fun _ => True) ∧
      ∀ x, r.ScalarOfMany x → ∀ outputs, w.execute.2 ≠ .ok outputs := by
  subst hw
  obtain ⟨c₀, c⟩ := hb.compiled hp
  have hres := c.sound'.resolved hresolve
  constructor
  · intro hno
    by_cases hover : (r.recheck .standard).2 = .error (.fault .overflow)
    · exact .inr (.inl (Network.execute_of_recheck hresolve hover))
    obtain ⟨g, report, done, hrecheck, -⟩ := c.recheck hres hover
    have k := c.ready hres hrecheck
    obtain ⟨done', -, hre⟩ := c.rechecked hres hrecheck
    have hsup : g.Supplied values := (hres.informed.recheck hrecheck hre.rechecking.wiring).supplied k
      (hb.stemsFrom hp) hb.checked hplain ht
    have hno' : ∀ x, ¬ g.ScalarOfMany x := fun x hx => hno x ((hre.scalarOfMany_iff hres).1 hx)
    by_cases hover : BufferPlan.ofGraph g = .error (.fault .overflow)
    · exact .inr (.inl (Network.execute_of_plan hresolve hrecheck hover))
    obtain ⟨plan, hplan⟩ := (BufferPlan.ofGraph_onlyOverflow k).eq_ok hover
    refine Network.execute_answers hresolve hrecheck hplan (BufferPlan.allocateFrom_answers hlimit)
      fun a bd halloc => ?_
    obtain ⟨hrun, hhoused⟩ := k.run_answers (k.housed hplan halloc) hsup hno'
    exact ⟨hrun, Ready.outputs_ok k hhoused⟩
  · intro x hx outputs hok
    obtain ⟨r', values', e, hruns, -⟩ :=
      Network.runs_of_execute (Prod.ext rfl hok : w.execute = (w.execute.1, .ok outputs))
    obtain ⟨rfl, hvalues⟩ := Prod.mk.inj (hresolve.symm.trans hruns.resolve)
    obtain rfl := Except.ok.inj hvalues
    have k := c.ready hres hruns.recheck
    obtain ⟨done, -, hre⟩ := c.rechecked hres hruns.recheck
    have hx := (hre.scalarOfMany_iff hres).2 hx
    obtain ⟨plan, a, bd, -, -, hrun⟩ := hruns.run
    obtain ⟨n, hn⟩ : ∃ n, e.graph.node? x = some n := by
      obtain ⟨hn, -⟩ := hx
      exact ⟨_, hn⟩
    obtain ⟨b₁, b₂, hnode⟩ :=
      Run.exists_of_along hrun (k.sound.mem_order.2 (contains_iff.2 ⟨n, hn⟩))
    exact k.node_ne_ok_of_scalarOfMany hx hnode

/-- A network of the scalar sample with its inputs bound. -/
def scalarNetwork : Network := { Network.ofProgram scalarProgram with inputs := scalarTensors }

theorem Graph.plain_of_tags (h : (g.nodes.all fun n => n.tag != .fullyConnected) = true) (x : NodeId)
    (n : Node) (hn : g.node? x = some n) : n.op ≠ .fullyConnected := by
  intro hop
  have := List.all_eq_true.1 h n (mem_nodes.2 ⟨x, hn⟩)
  simp [Node.tag, hop, Operation.tag] at this

theorem Tensor.filled_of_lookup (h : (tensors.all fun q => q.2.bytes.length =
    q.2.shape.prod * q.2.element.size) = true) (id : NodeId) (t : Tensor)
    (ht : tensors.lookup id = some t) : t.Filled := by
  obtain ⟨before, after, rfl, -⟩ := List.lookup_eq_some_iff.1 ht
  simpa [Filled] using List.all_eq_true.1 h (id, t) (by simp)

/-- No reshape makes a scalar. -/
theorem Graph.not_scalarOfMany_of_tags
    (h : (g.nodes.all fun n => n.tag != .reshape || n.layout.all (·.rank != 0)) = true) (x : NodeId) :
    ¬ g.ScalarOfMany x := by
  rintro ⟨hn, hop, hl, hrank, -⟩
  obtain ⟨n, hn', hlayout⟩ := layout_eq_ok.1 hl
  obtain rfl := Option.some.inj (hn.symm.trans hn')
  have := List.all_eq_true.1 h _ (mem_nodes.2 ⟨x, hn⟩)
  simp [Node.tag, hop, Operation.tag, hlayout, hrank] at this

theorem executes_samples :
    ((sampleNetwork sampleProgram).execute.2.Answers fun _ => True) ∧
      ∀ outputs, scalarNetwork.execute.2 ≠ .ok outputs := by
  constructor
  · refine (Graph.Built.executes built_sample (Graph.plain_of_tags (by decide +kernel))
      (show Program.build .standard sample = .ok sampleProgram from rfl) rfl rfl
      (Tensor.filled_of_lookup (by decide +kernel)) rfl).1 ?_
    exact Graph.not_scalarOfMany_of_tags (by decide +kernel)
  · refine (Graph.Built.executes built_scalarSample (Graph.plain_of_tags (by decide +kernel))
      (show Program.build .standard scalarSample = .ok scalarProgram from rfl) rfl rfl
      (Tensor.filled_of_lookup (by decide +kernel)) rfl).2 3 ?_
    exact ⟨rfl, rfl, rfl, rfl, rfl, rfl, by decide +kernel⟩

/-- The shapes of the sample resolve, but its reshape to a scalar is given six values. -/
theorem resolves_and_fails_scalarSample : scalarSample.Built ∧
    (∀ x n, scalarSample.node? x = some n → n.op ≠ .fullyConnected) ∧
      Program.build .standard scalarSample = .ok scalarProgram ∧
        (∃ r values, scalarProgram.graph.resolve scalarTensors = (r, .ok values)) ∧
          scalarNetwork.execute.2 = .error (.layoutCount 6 (.plain (.ofSizes []) .f32)) :=
  ⟨built_scalarSample, Graph.plain_of_tags (by decide +kernel), rfl, ⟨_, _, rfl⟩, rfl⟩

end BufferFusion
