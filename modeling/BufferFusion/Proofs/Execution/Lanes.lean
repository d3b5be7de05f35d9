import BufferFusion.Proofs.Execution.Cells
import BufferFusion.Proofs.Execution.Progress
import BufferFusion.Proofs.Lane.Convert

/-!
# Lanes in the range of their element type

Inputs bring lanes of their element type, reorders convert to theirs, and all other kernels but fully
connected layers hand lanes on between layouts of one element type. So the lanes of a node are values
of its element type, if those are that constants and fully connected layers put in and that reach the
node without a conversion.
-/
namespace BufferFusion

open BufferFusion.Graph Relation

variable {g : Graph} {b b' : Bindings} {values : InputValues} {n : Node} {l la : Layout}
  {m m' : Memory} {a c id x y : NodeId} {o number : Nat} {done ids : List NodeId} {xs : List Float}

theorem Operation.exists_of_tag_reorder {op : Operation} (h : op.tag = .reorder) :
    ∃ format element, op = .reorder format element := by
  cases op <;> simp [tag] at h
  exact ⟨_, _, rfl⟩

theorem Operation.eq_of_tag_fullyConnected {op : Operation} (h : op.tag = .fullyConnected) :
    op = .fullyConnected := by
  cases op <;> simp [tag] at h
  rfl

theorem Operation.exists_of_tag_concatenation {op : Operation} (h : op.tag = .concatenation) :
    ∃ axis, op = .concatenation axis := by
  cases op <;> simp [tag] at h
  exact ⟨_, rfl⟩

theorem Infer.Yields.element_reorder {p : Option (List Float)} {format : Format}
    {element : ElementType} {ins : List Layout} (h : Yields p (.reorder format element) ins l) :
    l.element = element := by
  cases h with
  | reorder => rfl

/-- The outputs of a fully connected layer have a float type. -/
theorem Infer.Yields.element_fullyConnected {p : Option (List Float)} {ins : List Layout}
    (h : Yields p .fullyConnected ins l) : l.element = .f32 ∨ l.element = .f16 := by
  cases h with
  | @fullyConnected data =>
    show (if data.element.isFloat then data.element else .f32) = _ ∨
      (if data.element.isFloat then data.element else .f32) = _
    cases data.element <;> simp [ElementType.isFloat]

/-- Operations that move elements have their inputs' element type. -/
theorem Infer.Yields.element_eq {p : Option (List Float)} {op : Operation} {ins : List Layout}
    {slot : Nat} (h : Yields p op ins l) (ha : ins[slot]? = some la)
    (hslot : slot = 0 ∨ op.tag = .concatenation) (hmoves : op.tag ≠ .fullyConnected)
    (hreorder : op.tag ≠ .reorder) : la.element = l.element := by
  by_cases hconcat : op.tag = .concatenation
  · obtain ⟨axis, rfl⟩ := Operation.exists_of_tag_concatenation hconcat
    exact (h.concatenation_inputs.2 la (List.mem_of_getElem? ha)).2.1
  obtain rfl := hslot.resolve_right hconcat
  cases h with
  | input | constant => cases ha
  | permute | reshape | crop =>
    obtain rfl := Option.some.inj ha
    rfl
  | concatenation => exact absurd rfl hconcat
  | reorder => exact absurd rfl hreorder
  | fullyConnected => exact absurd rfl hmoves

namespace Graph

/-- What is in the node's cells are values of its element type. -/
def Tame (g : Graph) (b : Bindings) (x : NodeId) : Prop :=
  ∀ ⦃l o lane⦄, g.layout x = .ok l → g.HasCell x o → b.cell? x o = some lane →
    l.element.convert lane = lane

/-- What is put in and reaches the node without a conversion are values of their element types. -/
def Grounded (g : Graph) (b : Bindings) (x : NodeId) : Prop :=
  ∀ ⦃a n⦄, ReflTransGen g.Passes a x → g.node? a = some n →
    (∀ d xs, n.op = .constant d xs → ∀ lane ∈ xs, d.element.convert lane = lane) ∧
      (n.op = .fullyConnected → g.Tame b a)

theorem Tame.congr (h : g.Tame b x) (hsame : ∀ o, g.HasCell x o → b'.cell? x o = b.cell? x o) :
    g.Tame b' x := fun _ _ _ hl ho hlane => h hl ho (hsame _ ho ▸ hlane)

theorem Grounded.trans (h : g.Grounded b x) (hyx : ReflTransGen g.Passes y x) : g.Grounded b y :=
  fun _ _ hay hn => h (hay.trans hyx) hn

/-- What lies in the cells of a node that holds a list are the values of the list. -/
theorem tame_of_holds (hl : g.layout x = .ok l) (hm : b.memory? x = some m) (h : m.Holds l xs)
    (hxs : ∀ lane ∈ xs, l.element.convert lane = lane) : g.Tame b x := by
  intro l₁ o lane hl₁ hcell hlane
  obtain rfl := Except.ok.inj (hl.symm.trans hl₁)
  obtain ⟨l₂, sizes, index, hl₂, hs, hi, rfl⟩ := hcell
  obtain rfl := Except.ok.inj (hl.symm.trans hl₂)
  obtain ⟨sizes', hs', -, hall⟩ := h
  obtain rfl := Option.some.inj (hs.symm.trans hs')
  rw [Bindings.cell?, hm, Option.bind_some, hall index hi] at hlane
  exact hxs lane (List.mem_of_getElem? hlane)

/-- The values that a tame node holds are values of its element type. -/
theorem Tame.convert_of_holds (k : g.Tame b x) (hl : g.layout x = .ok l) (hm : b.memory? x = some m)
    (h : m.Holds l xs) : ∀ lane ∈ xs, l.element.convert lane = lane := by
  intro lane hlane
  obtain ⟨i, hi⟩ := List.mem_iff_getElem?.1 hlane
  obtain ⟨sizes, hs, hlen, hall⟩ := h
  have hlt : i < sizes.prod := hlen ▸ (List.getElem?_eq_some_iff.1 hi).1
  have hindex := Index.unravel_lt hlt
  refine k hl ⟨l, sizes, _, hl, hs, hindex, rfl⟩ ?_
  rw [Bindings.cell?, hm, Option.bind_some, hall _ hindex, Index.position_unravel hlt, hi]

/-- The values of the inputs are lanes of their element types. -/
theorem Informed.convert_of_input {f : Graph} {tensors : List (NodeId × Tensor)}
    (hinf : f.Informed tensors values g) (k : Ready g values) {d : Layout} (hn : g.node? id = some n) (hop : n.op = .input d) (hl : g.layout id = .ok l)
    {xs : List Float} (hv : values.lookup id = some xs) :
    ∀ lane ∈ xs, l.element.convert lane = lane := by
  intro lane hlane
  obtain ⟨m, lanes, hbound, hlook⟩ := hinf.bound_of_input hn hop
  obtain rfl := Option.some.inj (hv.symm.trans hlook)
  obtain ⟨t, -, helement, -, hlanes⟩ := hbound.exists_tensor
  rw [(k.of_declared hn hl (by rw [hop]; rfl)).2, ← helement]
  exact Tensor.convert_of_mem_lanes hlanes hlane

end Graph

namespace Ready

variable (k : Ready g values)

include k

/-- An optimized reorder has the layout of its input. -/
theorem layout_of_reorder {format : Format} {element : ElementType} (hn : g.node? x = some n)
    (hop : n.op = .reorder format element) (hx : g.IsOptimized x) (ha : n.inputs[0]? = some a)
    (hla : g.layout a = .ok la) (hl : g.layout x = .ok l) : l = la := by
  have hin := (input_eq_ok hn).2 ha
  obtain ⟨p, hr⟩ := k.viewReason hn (by simp [hop]) hx hin hla hl
  rw [hop] at hr
  obtain - | - | ⟨-, hcompare, -⟩ := hr
  obtain rfl := k.sound.id_eq hn
  exact k.eq_of_compatible hn hop hin hla hl hcompare

/-- A reorder has the element type that it converts to. -/
theorem element_of_reorder {format : Format} {element : ElementType} (hn : g.node? x = some n)
    (hop : n.op = .reorder format element) (hl : g.layout x = .ok l) : l.element = element := by
  obtain ⟨ins, l', -, hl', hy⟩ := k.inferred hn
  obtain rfl := Except.ok.inj (hl.symm.trans hl')
  exact (hop ▸ hy).element_reorder

/-- Lanes are handed on between layouts of one element type. -/
theorem element_of_passes (h : g.Passes a c) (hla : g.layout a = .ok la) (hl : g.layout c = .ok l) :
    la.element = l.element := by
  obtain @⟨n, slot, hn, ha, hslot, hmoves, hkeeps⟩ := h
  by_cases hreorder : n.tag = .reorder
  · obtain ⟨format, element, hop⟩ := Operation.exists_of_tag_reorder hreorder
    obtain rfl := hslot.resolve_right (by simp [hreorder])
    rw [k.layout_of_reorder hn hop (hkeeps hreorder) ha hla hl]
  · obtain ⟨ins, l', hins, hl', hy⟩ := k.inferred hn
    obtain rfl := Except.ok.inj (hl.symm.trans hl')
    have hbare : (ins.map Layout.bare)[slot]? = some la.bare := by
      rw [List.getElem?_map, hins.getElem? ha hla]
      rfl
    have hsame := hy.element_eq hbare hslot hmoves hreorder
    exact hsame

theorem element_of_path (h : ReflTransGen g.Passes a c) (hla : g.layout a = .ok la)
    (hl : g.layout c = .ok l) : la.element = l.element := by
  induction h using ReflTransGen.head_induction_on generalizing la with
  | refl => rw [Except.ok.inj (hla.symm.trans hl)]
  | @head a d had _ ih =>
    obtain ⟨n, hn, -⟩ := had.feeds
    obtain ⟨ld, hld⟩ := k.layout_ok (contains_iff.2 ⟨n, hn⟩)
    exact (k.element_of_passes had hla hld).trans (ih hld)

/-- A node whose cells are others' is tame where they are. -/
theorem tame_of_optimized (hb : g.Housed b) (hx : g.IsOptimized x)
    (h : ∀ y, ReflTransGen g.Passes y x → y ≠ x → g.Tame b y) : g.Tame b x := by
  intro l o lane hl hcell hlane
  obtain ⟨y, hpath, hconn, hopt, hy⟩ := k.exists_writer hcell
  have hsame : b.cell? y o = b.cell? x o := by
    rw [Bindings.cell?, Bindings.cell?, Bindings.memory?_congr (hb.same hconn)]
  have htame : g.Tame b y := h y hpath fun he => hopt (he ▸ hx)
  obtain ⟨ly, sizes, index, hly, hrest⟩ := hy
  rw [← k.element_of_path hpath hly hl]
  exact htame hly ⟨ly, sizes, index, hly, hrest⟩ (hsame.trans hlane)

/-- What a kernel moves it has read from a node that hands its elements on. -/
theorem exists_read_of_mem (hn : g.node? id = some n) (hopt : ¬ g.IsOptimized id)
    (hxs : Run.compute g b values n l = .ok xs) (hdeclared : n.op.declared? = none)
    (hmoves : n.tag ≠ .fullyConnected) (hreorder : n.tag ≠ .reorder) {lane : Float}
    (hlane : lane ∈ xs) : ∃ a la m ys, g.Passes a id ∧ g.layout a = .ok la ∧
      b.memory? a = some m ∧ m.read la = .ok ys ∧ lane ∈ ys := by
  obtain rfl := k.sound.id_eq hn
  -- a lane that was read in a slot
  have hslot : ∀ {slot lv}, Run.readInput g b n.id slot = .ok lv → lane ∈ lv.values →
      (slot = 0 ∨ n.tag = .concatenation) → ∃ a la m ys, g.Passes a n.id ∧ g.layout a = .ok la ∧
        b.memory? a = some m ∧ m.read la = .ok ys ∧ lane ∈ ys := by
    intro slot lv hlv hmem hwhich
    obtain ⟨a, la, m, ys, sizes, ha, hla, hm, hread, -, rfl⟩ := readInput_eq_ok.1 hlv
    exact ⟨a, la, m, ys, ⟨hn, (input_eq_ok hn).1 ha, hwhich, hmoves, fun h => absurd h hreorder⟩,
      hla, hm, hread, by simpa using hmem⟩
  cases hop : n.op with
  | input | constant =>
    rw [hop] at hdeclared
    cases hdeclared
  | fullyConnected => exact absurd (by rw [Node.tag, hop]; rfl) hmoves
  | reorder => exact absurd (by rw [Node.tag, hop]; rfl) hreorder
  | permute order =>
    rw [Run.compute, hop] at hxs
    obtain ⟨lv, hlv, hxs⟩ := Result.bind_eq_ok.1 hxs
    exact hslot hlv (Kernel.mem_of_permute hxs hlane) (.inl rfl)
  | reshape target copyZeros =>
    rw [Run.compute, hop] at hxs
    obtain ⟨lv, hlv, hxs⟩ := Result.bind_eq_ok.1 hxs
    obtain rfl := Except.ok.inj hxs
    exact hslot hlv (by simpa using hlane) (.inl rfl)
  | crop offsets sizes =>
    rw [Run.compute, hop] at hxs
    obtain ⟨lv, hlv, hxs⟩ := Result.bind_eq_ok.1 hxs
    exact hslot hlv (Kernel.mem_of_crop hxs hlane) (.inl rfl)
  | concatenation axis =>
    rw [Run.compute, hop] at hxs
    obtain ⟨parts, hparts, hxs⟩ := Result.bind_eq_ok.1 hxs
    obtain ⟨sizes, -, hxs⟩ := Result.bind_eq_ok.1 hxs
    obtain ⟨part, hpart, hmem⟩ := Kernel.mem_of_concatenate hxs hlane
    obtain ⟨slot, -, hlv⟩ := Result.exists_of_mem_mapM hparts hpart
    exact hslot hlv hmem (.inr (by rw [Node.tag, hop]; rfl))

end Ready

/-- A run underway: a node that has run is tame if what is put in before it is. -/
structure Taming (g : Graph) (b : Bindings) (done : List NodeId) : Prop where
  housed : g.Housed b
  closed : ∀ {a c}, g.Feeds a c → c ∈ done → a ∈ done
  tame : ∀ x ∈ done, g.Grounded b x → g.Tame b x

namespace Taming

variable (r : Taming g b done) (k : Ready g values)
  (hvalues : ∀ {id n d l xs}, g.node? id = some n → n.op = .input d → g.layout id = .ok l →
    values.lookup id = some xs → ∀ lane ∈ xs, l.element.convert lane = lane)

include r k hvalues

/-- The lanes that a kernel writes, which is no fully connected layer. -/
theorem convert_of_compute (hn : g.node? id = some n) (hl : g.layout id = .ok l)
    (hopt : ¬ g.IsOptimized id) (hmoves : n.tag ≠ .fullyConnected)
    (hready : ∀ a, g.Feeds a id → a ∈ done)
    (hground : ∀ a, g.Passes a id → g.Grounded b a)
    (hconst : ∀ d xs, n.op = .constant d xs → ∀ lane ∈ xs, d.element.convert lane = lane)
    (hxs : Run.compute g b values n l = .ok xs) : ∀ lane ∈ xs, l.element.convert lane = lane := by
  obtain rfl := k.sound.id_eq hn
  intro lane hlane
  cases hop : n.op with
  | input d =>
    rw [Run.compute, hop] at hxs
    cases hv : values.lookup n.id with
    | none =>
      simp only [hv] at hxs
      cases hxs
    | some ys =>
      simp only [hv] at hxs
      obtain rfl := Except.ok.inj hxs
      exact hvalues hn hop hl hv lane hlane
  | constant d ys =>
    rw [Run.compute, hop] at hxs
    obtain rfl := Except.ok.inj hxs
    rw [(k.of_declared hn hl (by rw [hop]; rfl)).2]
    exact hconst d ys hop lane hlane
  | reorder format element =>
    rw [Run.compute, hop] at hxs
    obtain ⟨lv, -, hxs⟩ := Result.bind_eq_ok.1 hxs
    obtain rfl := Except.ok.inj hxs
    obtain ⟨v, -, rfl⟩ := List.mem_map.1 hlane
    rw [k.element_of_reorder hn hop hl]
    exact ElementType.convert_convert element v
  | permute | reshape | crop | concatenation =>
    obtain ⟨a, la, m, ys, hpass, hla, hm, hread, hmem⟩ := k.exists_read_of_mem hn hopt hxs
      (by rw [hop]; rfl) hmoves (by simp [Node.tag, hop, Operation.tag]) hlane
    have htame : g.Tame b a := r.tame a (hready a hpass.feeds) (hground a hpass)
    rw [← k.element_of_passes hpass hla hl]
    exact htame.convert_of_holds hla hm (Memory.holds_of_read (k.valid hla) hread) lane hmem
  | fullyConnected => exact absurd (by rw [Node.tag, hop]; rfl) hmoves

omit hvalues in
/-- Writing a node changes nothing of those that have run before it. -/
theorem grounded_of_write (hnew : id ∉ done) (hid : ¬ g.IsOptimized id) (hl : g.layout id = .ok l)
    (hnumber : b.number? id = some number) (hm : b.memory? id = some m)
    (hwrite : m.write l xs = (m', .ok ())) (hx : x ∈ done)
    (hground : g.Grounded (b.setMemory number m') x) : g.Grounded b x := by
  intro a n hax hn
  obtain ⟨hconst, hconnected⟩ := hground hax hn
  refine ⟨hconst, fun hop => (hconnected hop).congr fun o ho => ?_⟩
  have ha : a ∈ done := mem_of_passes r.closed hax hx
  exact (k.cell?_of_write r.housed r.closed hnew hid hl hnumber hm hwrite ha ho).symm

theorem step (hnew : id ∉ done) (hlive : g.contains id = true)
    (hready : ∀ a, g.Feeds a id → a ∈ done) (h : Run.node g values id b = (b', .ok ())) :
    Taming g b' (id :: done) := by
  have hclosed : ∀ {a c}, g.Feeds a c → c ∈ id :: done → a ∈ id :: done :=
    fun hf hc => closed_cons r.closed hready hf hc
  obtain ⟨n, hn⟩ := contains_iff.1 hlive
  by_cases hopt : g.IsOptimized id
  · rw [Run.node_of_optimized hn ((isOptimized_iff hn).1 hopt)] at h
    obtain ⟨rfl, -⟩ := Prod.mk.inj h
    refine ⟨r.housed, hclosed, fun x hx hground => ?_⟩
    obtain rfl | hx := List.mem_cons.1 hx
    swap
    · exact r.tame x hx hground
    refine k.tame_of_optimized r.housed hopt fun y hpath hne => ?_
    obtain rfl | ⟨a, hya, hax⟩ := hpath.cases_tail
    · exact absurd rfl hne
    · exact r.tame y (mem_of_passes r.closed hya (hready a hax.feeds)) (hground.trans hpath)
  obtain ⟨l, xs, number, m, m', hl, hxs, hnumber, hm, hwrite, rfl⟩ :=
    Run.node_eq_ok hn hopt h
  have hsize : m'.size = m.size := by rw [← Memory.size_write m l xs, hwrite]
  have hback : ∀ x ∈ done, g.Grounded (b.setMemory number m') x → g.Grounded b x := fun x hx =>
    r.grounded_of_write k hnew hopt hl hnumber hm hwrite hx
  refine ⟨r.housed.setMemory hnumber hm hsize, hclosed, fun x hx hground => ?_⟩
  obtain rfl | hx := List.mem_cons.1 hx
  swap
  · have htame : g.Tame b x := r.tame x hx (hback x hx hground)
    exact htame.congr fun o ho =>
      k.cell?_of_write r.housed r.closed hnew hopt hl hnumber hm hwrite hx ho
  obtain ⟨hconst, hconnected⟩ := hground .refl hn
  by_cases hmoves : n.op = .fullyConnected
  · exact hconnected hmoves
  have hm' : (b.setMemory number m').memory? x = some m' := by
    rw [Bindings.memory?_setMemory hnumber hm, if_pos hnumber]
  refine tame_of_holds hl hm' (Memory.holds_of_write (k.valid hl) hwrite).1 ?_
  refine r.convert_of_compute k hvalues hn hl hopt (fun htag => hmoves ?_) hready (fun a ha => ?_)
    hconst hxs
  · exact Operation.eq_of_tag_fullyConnected htag
  · exact hback a (hready a ha.feeds) (hground.trans (.single ha))

end Taming

/-! ### Executions -/

/-- What a kernel has written is read after the run. -/
theorem Ready.read_of_run (k : Ready g values) (hb : g.Housed b')
    (hrun : g.run b values = (b', .ok ())) (hlive : g.contains x = true) (hopt : ¬ g.IsOptimized x)
    (hl : g.layout x = .ok l) (hm : b'.memory? x = some m) :
    ∃ xs, m.read l = .ok xs ∧ m.Holds l xs := by
  obtain ⟨n, hn⟩ := contains_iff.1 hlive
  obtain ⟨b₁, b₂, hnode⟩ := Run.exists_of_along hrun (k.sound.mem_order.2 hlive)
  obtain ⟨l₁, ys, _, m₁, m₂, hl₁, -, -, -, hwrite, -⟩ := Run.node_eq_ok hn hopt hnode
  obtain rfl := Except.ok.inj (hl.symm.trans hl₁)
  obtain ⟨sizes, a, hs, hcount, ha, -⟩ := Memory.write_eq_ok.1 hwrite
  obtain ⟨m', hm', hfits⟩ := hb.room hlive
  obtain rfl := Option.some.inj (hm.symm.trans hm')
  obtain ⟨size, hf, hle⟩ := hfits l hl
  obtain ⟨xs, hxs⟩ := Memory.exists_holds (k.valid hl) hf hle hs
  have hroom : Size.reserve 8 ys.length = .ok () := by
    refine Size.reserve_eq_ok.2 ?_
    rw [← Size.prod_of_product hcount]
    exact (Layout.prod_le_footprint (k.valid hl) hf hs).trans (hle.trans (hb.small hm))
  exact ⟨xs, Memory.read_of_holds (k.valid hl) hf ha hs hcount hroom hxs, hxs⟩

/-- The memory of the node is read unless a size overflows, and what is read are values of its
element type. -/
def Execution.InRange (e : Execution) (x : NodeId) : Prop :=
  ∃ l m, e.graph.layout x = .ok l ∧ e.bindings.memory? x = some m ∧
    (m.read l).Answers fun lanes => ∀ lane ∈ lanes, l.element.convert lane = lane

theorem Execution.InRange.convert_of_read {e : Execution} (h : e.InRange x)
    (hl : e.graph.layout x = .ok l) (hm : e.bindings.memory? x = some m) (hread : m.read l = .ok xs) :
    ∀ lane ∈ xs, l.element.convert lane = lane := by
  obtain ⟨l₁, m₁, hl₁, hm₁, hanswer⟩ := h
  obtain rfl := Except.ok.inj (hl.symm.trans hl₁)
  obtain rfl := Option.some.inj (hm.symm.trans hm₁)
  obtain ⟨ys, hys, hall⟩ | he | he := hanswer
  · exact Except.ok.inj (hread.symm.trans hys) ▸ hall
  · cases hread.symm.trans he
  · cases hread.symm.trans he

namespace Ready

variable {e : Execution} (k : Ready e.graph values)

include k

/-- A fully connected layer whose outputs are in range is tame after the run. -/
theorem tame_of_inRange (hb : e.graph.Housed e.bindings)
    (hrun : e.graph.run b values = (e.bindings, .ok ())) (hlive : e.graph.contains x = true)
    (hopt : ¬ e.graph.IsOptimized x) (h : e.InRange x) : e.graph.Tame e.bindings x := by
  obtain ⟨l, hl⟩ := k.layout_ok hlive
  obtain ⟨m, hm, -⟩ := hb.room hlive
  obtain ⟨xs, hxs, hholds⟩ := k.read_of_run hb hrun hlive hopt hl hm
  exact tame_of_holds hl hm hholds (h.convert_of_read hl hm hxs)

/-- The lanes of a tame node are in range. -/
theorem inRange_of_tame (hb : e.graph.Housed e.bindings) (hlive : e.graph.contains x = true)
    (h : e.graph.Tame e.bindings x) : e.InRange x := by
  obtain ⟨l, hl⟩ := k.layout_ok hlive
  obtain ⟨m, hm, hfits⟩ := hb.room hlive
  obtain ⟨size, hf, hle⟩ := hfits l hl
  refine ⟨l, m, hl, hm, ?_⟩
  refine (Memory.read_answers (k.valid hl) (k.static hl) (k.settled hl) hf hle).mono
    fun xs hxs _ => h.convert_of_holds hl hm (Memory.holds_of_read (k.valid hl) hxs)

/-- Reorders between equal layouts change no lane that is in range. -/
theorem keepsLanes_of_inRange (h : ∀ x, e.graph.contains x = true → e.InRange x) : e.KeepsLanes := by
  intro x n format element a l m lanes hn hop hin hla hl hm hread
  obtain rfl := k.sound.id_eq hn
  have hf : e.graph.Feeds a n.id := .of_input hn ((input_eq_ok hn).1 hin)
  rw [← k.element_of_reorder hn hop hl]
  exact (h a (k.sound.live hf)).convert_of_read hla hm hread

end Ready

/-- After an execution of a compiled graph the lanes of a node are values of its element type, if those
of the constants are that reach it without a conversion, and, where the type is single precision, what
is read of the fully connected layers that do. -/
theorem Graph.Built.lanes_inRange {f : Graph} (hb : f.Built) {config : BuildConfig} {p : Program}
    (hp : Program.build config f = .ok p) {w w' : Network} {e : Execution} {outputs : List Output}
    (hw : w.program = p) (hrun : w.execute = (w', .ok outputs)) (hlast : w'.last = some e)
    (hl : e.graph.layout x = .ok l)
    (hconst : ∀ a n d xs, ReflTransGen e.graph.Passes a x → e.graph.node? a = some n →
      n.op = .constant d xs → ∀ lane ∈ xs, l.element.convert lane = lane)
    (hconnected : l.element = .f32 → ∀ a n, ReflTransGen e.graph.Passes a x →
      e.graph.node? a = some n → n.op = .fullyConnected → e.InRange a) : e.InRange x := by
  subst hw
  obtain ⟨c₀, c⟩ := hb.compiled hp
  obtain ⟨r, values, e', hruns, -, hlast'⟩ := Network.runs_of_execute hrun
  obtain rfl := Option.some.inj (hlast.symm.trans hlast')
  have hres := c.sound'.resolved hruns.resolve
  have k := c.ready hres hruns.recheck
  obtain ⟨done, -, hre⟩ := c.rechecked hres hruns.recheck
  have hinf := hres.informed.recheck hruns.recheck hre.rechecking.wiring
  obtain ⟨plan, allocator, b, hplan, halloc, hran⟩ := hruns.run
  -- what all nodes hold after the run
  have t₀ : Taming e.graph b [] := ⟨k.housed hplan halloc, by simp, by simp⟩
  have t : Taming e.graph e.bindings (e.graph.order.reverse ++ []) :=
    Run.along_induction (P := fun done b => Taming e.graph b done) t₀
      (fun t hnew hlive hready hnode => t.step k
        (fun hn hop hl hv => hinf.convert_of_input k hn hop hl hv) hnew hlive hready hnode)
      k.sound.ordered hran
  obtain ⟨n, hn, -⟩ := layout_eq_ok.1 hl
  have hlive : e.graph.contains x = true := contains_iff.2 ⟨n, hn⟩
  refine k.inRange_of_tame t.housed hlive (t.tame x (by simpa using k.sound.mem_order.2 hlive) ?_)
  -- what reaches the node has its element type
  intro a m hpath hm
  have hlive : e.graph.contains a = true := contains_iff.2 ⟨m, hm⟩
  obtain ⟨la, hla⟩ := k.layout_ok hlive
  have helement : la.element = l.element := k.element_of_path hpath hla hl
  constructor
  · intro d xs hop lane hlane
    rw [← (k.of_declared hm hla (by rw [hop]; rfl)).2, helement]
    exact hconst a m d xs hpath hm hop lane hlane
  · intro hop
    obtain ⟨ins, l', -, hl', hy⟩ := k.inferred hm
    obtain rfl := Except.ok.inj (hla.symm.trans hl')
    have hfloat : la.element = .f32 ∨ la.element = .f16 := (hop ▸ hy).element_fullyConnected
    obtain hsingle | hhalf := hfloat
    · have hopt : ¬ e.graph.IsOptimized a := fun hopt =>
        k.moves_of_optimized hopt hm (by rw [Node.tag, hop]; rfl)
      exact k.tame_of_inRange t.housed hran hlive hopt
        (hconnected (helement ▸ hsingle) a m hpath hm hop)
    · -- a lane of half precision is kept as it is
      intro l₂ o lane hl₂ _ _
      obtain rfl := Except.ok.inj (hla.symm.trans hl₂)
      rw [hhalf]
      rfl

/-! ### A sample -/

/-- A fully connected layer whose output has too many bits for its type, a constant that its type
cannot hold, and a view of a constant that its type does hold. -/
def laneSample : Graph :=
  ((((empty.place "x" (.input (.plain (.ofSizes [1, 2]) .f32)) []).place "w"
    (.constant (.plain (.ofSizes [1, 2]) .f32) [1, Float.ofBits 0x3e10000000000000]) []).place "fc"
      .fullyConnected [0, 1]).place "c" (.constant (.plain (.ofSizes [1]) .u8) [300]) []).place "v"
        (.reshape (.pattern [2]) false) [1]

/-- The sample compiled. -/
def laneProgram : Program :=
  ⟨(Pass.fuseAlong .standard laneSample.order (InferenceTable.standard.inferGraph [] laneSample).1).1,
    .standard, none⟩

/-- A network of the sample, with ones for its input. -/
def laneNetwork : Network :=
  { Network.ofProgram laneProgram with
    inputs := [(0, ⟨[1, 2], .f32, [0, 0, 128, 63, 0, 0, 128, 63]⟩)] }

theorem built_laneSample : laneSample.Built :=
  Built.empty.place rfl |>.place rfl |>.place rfl |>.place rfl |>.place rfl

/-- The nodes that hand on to one that reads a single source. -/
theorem Graph.eq_or_eq_of_path (hx : (g.node? x).map Node.inputs = some [c])
    (hc : (g.node? c).map Node.inputs = some []) (h : ReflTransGen g.Passes a x) : a = x ∨ a = c := by
  have hin : ∀ {d y ins}, g.Passes d y → (g.node? y).map Node.inputs = some ins → d ∈ ins := by
    intro d y ins hp hy
    obtain ⟨hn, hd, -⟩ := hp
    rw [hn, Option.map_some] at hy
    exact Option.some.inj hy ▸ List.mem_of_getElem? hd
  obtain rfl | ⟨d, had, hdx⟩ := h.cases_tail
  · exact .inl rfl
  obtain rfl := List.mem_singleton.1 (hin hdx hx)
  obtain rfl | ⟨y, -, hyd⟩ := had.cases_tail
  · exact .inr rfl
  · cases hin hyd hc

/-- The view has lanes of its type. -/
theorem lanes_inRange_laneSample : ∃ w e outputs, laneNetwork.execute = (w, .ok outputs) ∧
    w.last = some e ∧ e.InRange 4 := by
  obtain ⟨w, e, outputs, hrun, hlast, hl, hview, hsource, hop, hop'⟩ : ∃ w e outputs,
      laneNetwork.execute = (w, .ok outputs) ∧ w.last = some e ∧
        e.graph.layout 4 = .ok (.plain (.ofSizes [2]) .f32) ∧
        (e.graph.node? 4).map Node.inputs = some [1] ∧ (e.graph.node? 1).map Node.inputs = some [] ∧
        (e.graph.node? 4).map Node.op = (laneSample.node? 4).map Node.op ∧
        (e.graph.node? 1).map Node.op = (laneSample.node? 1).map Node.op :=
    ⟨_, _, _, rfl, rfl, rfl, rfl, rfl, rfl, rfl⟩
  refine ⟨w, e, outputs, hrun, hlast, Graph.Built.lanes_inRange built_laneSample
    (show Program.build .standard laneSample = .ok laneProgram from rfl) rfl hrun hlast hl
    (fun a n d xs ha hn hconst lane hlane => ?_) (fun _ a n ha hn hconn => ?_)⟩
  · obtain rfl | rfl := eq_or_eq_of_path hview hsource ha
    · rw [hn, Option.map_some, hconst] at hop
      cases hop
    · rw [hn, Option.map_some, hconst] at hop'
      cases hop'
      revert lane
      decide +kernel
  · obtain rfl | rfl := eq_or_eq_of_path hview hsource ha
    · rw [hn, Option.map_some, hconn] at hop
      cases hop
    · rw [hn, Option.map_some, hconn] at hop'
      cases hop'

/-- A fully connected layer shows a lane that its type cannot hold, and so does a constant. -/
theorem outOfRange_laneSample : laneSample.Built ∧
    Program.build .standard laneSample = .ok laneProgram ∧ ∃ w e outputs,
      laneNetwork.execute = (w, .ok outputs) ∧ w.last = some e ∧ ∀ x ∈ [2, 3], ∃ l m lanes,
        e.graph.layout x = .ok l ∧ e.bindings.memory? x = some m ∧ m.read l = .ok lanes ∧
          ¬ ∀ lane ∈ lanes, l.element.convert lane = lane := by
  obtain ⟨w, e, outputs, hrun, hlast, m, m', hl, hl', hm, hm', hread, hread'⟩ : ∃ w e outputs,
      laneNetwork.execute = (w, .ok outputs) ∧ w.last = some e ∧ ∃ m m',
        e.graph.layout 2 = .ok (.plain (.ofSizes [1, 1]) .f32) ∧
        e.graph.layout 3 = .ok (.plain (.ofSizes [1]) .u8) ∧
        e.bindings.memory? 2 = some m ∧ e.bindings.memory? 3 = some m' ∧
        m.read (.plain (.ofSizes [1, 1]) .f32) = .ok [Float.ofBits 0x3ff0000000400000] ∧
        m'.read (.plain (.ofSizes [1]) .u8) = .ok [300] :=
    ⟨_, _, _, rfl, rfl, _, _, rfl, rfl, rfl, rfl, by decide +kernel, rfl⟩
  refine ⟨built_laneSample, rfl, w, e, outputs, hrun, hlast, fun x hx => ?_⟩
  obtain rfl | rfl : x = 2 ∨ x = 3 := by simpa using hx
  · exact ⟨_, m, _, hl, hm, hread, by decide +kernel⟩
  · exact ⟨_, m', _, hl', hm', hread', by decide +kernel⟩

end BufferFusion
