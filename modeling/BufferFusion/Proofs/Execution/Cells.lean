import BufferFusion.Proofs.Execution.Running

/-!
# Cells

Views and concatenations done in place show cells that others have written: every cell of a node is
one of a node whose kernel runs, and that hands its elements on. So a kernel leaves the cells of all
nodes that have run before it as they are.
-/
namespace BufferFusion

open Graph Fuse Addressing Relation

variable {g : Graph} {b : Bindings} {values : InputValues} {n : Node} {l la input output : Layout}
  {m m' : Memory} {a c id x y into owner : NodeId} {offset axis o number : Nat}
  {done : List NodeId}

/-- What is in a cell of the memory that the node is bound to. -/
def Bindings.cell? (b : Bindings) (x : NodeId) (o : Nat) : Option Float :=
  (b.memory? x).bind fun m => m.cells[o]?

namespace Graph

/-- The cell is the place of an element of the node. -/
def HasCell (g : Graph) (x : NodeId) (o : Nat) : Prop :=
  ∃ l sizes index, g.layout x = .ok l ∧ l.shape.sizes? = some sizes ∧
    List.Forall₂ (· < ·) index sizes ∧ l.cellOf sizes index = o

/-- The second node hands on elements of the first as they are: by moving them, or because it lies
where they are. All inputs of a concatenation are handed on, and of the other operations the first. -/
inductive Passes (g : Graph) (a c : NodeId) : Prop
  | intro {n slot} (node : g.node? c = some n) (input : n.inputs[slot]? = some a)
      (reads : slot = 0 ∨ n.tag = .concatenation) (moves : n.tag ≠ .fullyConnected)
      (keeps : n.tag = .reorder → g.IsOptimized c)

theorem Passes.feeds (h : g.Passes a c) : g.Feeds a c := by
  obtain ⟨hn, ha, -⟩ := h
  exact .of_input hn ha

/-- What is closed under producers holds all that is handed on to its nodes. -/
theorem mem_of_passes (hclosed : ∀ {a c}, g.Feeds a c → c ∈ done → a ∈ done)
    (h : ReflTransGen g.Passes a c) (hc : c ∈ done) : a ∈ done := by
  induction h using ReflTransGen.head_induction_on with
  | refl => exact hc
  | head h _ ih => exact hclosed h.feeds ih

end Graph

namespace Ready

variable (k : Ready g values)

include k

/-- No fully connected layer is optimized. -/
theorem moves_of_optimized (hx : g.IsOptimized x) (hn : g.node? x = some n) :
    n.tag ≠ .fullyConnected := by
  intro htag
  obtain ⟨into, offset, hst⟩ := hx
  obtain ⟨p, hstands⟩ := k.stands hst
  cases hstands with
  | view hn' hv _ =>
    obtain rfl := Option.some.inj (hn.symm.trans hn')
    have hr := hv.reason
    cases hop : n.op <;> simp [Node.tag, Operation.tag, hop] at htag
    rw [hop] at hr
    cases hr
  | inPlace hn' hc _ =>
    obtain rfl := Option.some.inj (hn.symm.trans hn')
    rw [Node.tag, hc.op] at htag
    cases htag

/-- Optimized nodes hand their inputs on. -/
theorem passes_of_optimized (hx : g.IsOptimized x) (hn : g.node? x = some n) {slot : Nat}
    (ha : n.inputs[slot]? = some a) (hslot : slot = 0 ∨ n.tag = .concatenation) :
    g.Passes a x :=
  ⟨hn, ha, hslot, k.moves_of_optimized hx hn, fun _ => hx⟩

/-- A view that moves no element has the cells of its input. -/
theorem hasCell_of_plain (hn : g.node? x = some n) (hx : g.state? x = some (.optimized into offset))
    (hi : g.layout into = .ok input) (ho : g.layout x = .ok output)
    (hplain : viewObstacle? input output = none)
    (hop : ∀ offsets sizes, n.op ≠ .crop offsets sizes)
    (hcount : input.shape.volume = output.shape.volume) (h : g.HasCell x o) : g.HasCell into o := by
  obtain ⟨hz, hb, hb', -⟩ := obstacle_eq_none.1 hplain
  have hplain : ∀ {f : Format}, f.isBlocked = false → f.block? = none := fun hf =>
    Option.isNone_iff_eq_none.1 (by simpa [Format.isBlocked] using hf)
  obtain ⟨l, sizes, index, hl, hs, hindex, rfl⟩ := h
  obtain rfl := Except.ok.inj (ho.symm.trans hl)
  obtain ⟨dims, hdims⟩ := k.exists_sizes hi
  rw [Shape.volume_sizes hdims, Shape.volume_sizes hs] at hcount
  have hlt : position index sizes < dims.prod := hcount ▸ position_lt hindex
  refine ⟨input, dims, Index.unravel dims (position index sizes), hi, hdims, Index.unravel_lt hlt, ?_⟩
  rw [Layout.cellOf_plain (k.padding_of_isZero hi hz) (hplain hb) hdims (Index.unravel_lt hlt),
    Index.position_unravel hlt,
    Layout.cellOf_plain (k.unpadded_of_optimized hn hx ho hop) (hplain hb') hs hindex]

/-- A window has cells of its input. -/
theorem hasCell_of_window (hw : g.Windowed x) (hin : g.input x 0 = .ok into) (h : g.HasCell x o) :
    g.HasCell into o := by
  obtain ⟨n, offsets, sizes, a, l, l', dims, -, -, ha, hl, hl', -, -, halong, hindex⟩ :=
    k.window_alongside hw
  obtain rfl := Except.ok.inj (hin.symm.trans ha)
  obtain ⟨l₁, sizes', index, hl₁, hs, hi, rfl⟩ := h
  obtain rfl := Except.ok.inj (hl'.symm.trans hl₁)
  obtain rfl := Option.some.inj (hs.symm.trans halong.right)
  obtain ⟨hbelow, hcoords⟩ := hindex index hi
  exact ⟨l, dims, _, hl, halong.left, hbelow,
    (Layout.cellOf_congr halong.format hcoords halong.padded).symm⟩

/-- The cells of a view are cells of its input. -/
theorem hasCell_of_view (hx : g.state? x = some (.optimized into offset)) (hne : into ≠ x)
    (h : g.HasCell x o) : g.HasCell into o := by
  obtain ⟨p, hstands⟩ := k.stands hx
  cases hstands with
  | @inPlace n axis output extents hn hc _ =>
    exact absurd (k.linked.inPlace_of_joins hx ⟨n, hn, hc.op⟩).1 hne
  | @view n into' input output hn hp _ =>
  obtain ⟨rfl, -, -⟩ := k.linked.view_of_proposal k.sound hx hn hp
  obtain rfl := k.sound.id_eq hn
  have hin := hp.reads
  have hi := hp.input_layout
  have ho := hp.output_layout
  have hr := hp.reason
  cases hop : n.op with
  | input | constant | concatenation | fullyConnected =>
    rw [hop] at hr
    cases hr
  | reshape target copyZeros =>
    rw [hop] at hr
    obtain ⟨hplain, hflat, hsame⟩ := hr
    exact k.hasCell_of_plain hn hx hi ho hplain (by simp [hop])
      (volume_eq_of_isStatic hplain hflat hsame (k.static hi) (k.static ho)) h
  | permute order =>
    rw [hop] at hr
    obtain - | ⟨hplain, -, hflat, hsame⟩ := hr
    exact k.hasCell_of_plain hn hx hi ho hplain (by simp [hop])
      (volume_eq_of_isStatic hplain hflat hsame (k.static hi) (k.static ho)) h
  | reorder format element =>
    rw [hop] at hr
    obtain - | - | ⟨-, hcompare, -⟩ := hr
    obtain rfl := k.eq_of_compatible hn hop hin hi ho hcompare
    obtain ⟨l, sizes, index, hl, hrest⟩ := h
    obtain rfl := Except.ok.inj (ho.symm.trans hl)
    exact ⟨_, sizes, index, hi, hrest⟩
  | crop offsets sizes =>
    exact k.hasCell_of_window ⟨⟨into, offset, hx⟩, n, offsets, sizes, hn, hop⟩ hin h

/-- The cells of a concatenation done in place are cells of its slices. -/
theorem hasCell_of_inPlace (hx : g.state? x = some (.optimized x offset)) (h : g.HasCell x o) :
    ∃ (n : Node) (slot : Nat) (a : NodeId), g.node? x = some n ∧ n.tag = .concatenation ∧
      n.inputs[slot]? = some a ∧ g.HasCell a o := by
  obtain ⟨p, hstands⟩ := k.stands hx
  cases hstands with
  | @view n into input output hn hp _ =>
    exact absurd rfl (k.linked.view_of_proposal k.sound hx hn hp).2.1
  | @inPlace n axis output extents hn hc _ =>
  have hz := k.unpadded_inPlace hn hc hx
  obtain ⟨es, dims, hes, hdims, hsum, hslice⟩ := k.slices hn hc
  obtain rfl := k.sound.id_eq hn
  obtain ⟨l, sizes, index, hl, hs, hi, rfl⟩ := h
  obtain rfl := Except.ok.inj (hc.output_layout.symm.trans hl)
  obtain rfl := Option.some.inj (hdims.symm.trans hs)
  -- the slice that the coordinate on the axis falls into
  have haxis : axis < index.length := by
    rw [hi.length_eq]
    exact (List.getElem?_eq_some_iff.1 hsum).1
  have hc' := List.getElem?_eq_getElem haxis
  obtain ⟨i, e, he, hlo, hhi⟩ := Kernel.exists_slot (forall₂_getElem? hi hc' hsum)
  have ha := List.getElem?_eq_getElem (hes ▸ (List.getElem?_eq_some_iff.1 he).1)
  obtain ⟨l, e', sizes, hl, he', hformat, kl⟩ := hslice ha
  obtain rfl := Option.some.inj (he.symm.trans he')
  obtain ⟨hbelow, hcell⟩ := kl.cell hformat hdims hz hi hc' hlo hhi
  exact ⟨n, i, _, hn, by rw [Node.tag, hc.op]; rfl, ha, l, sizes, _, hl, kl.sizes_eq, hbelow, hcell⟩

/-- Every cell of a node is written by a kernel whose values are handed on to it. -/
theorem exists_writer (h : g.HasCell x o) : ∃ y, ReflTransGen g.Passes y x ∧
    Sharing.Connected g.sharing.edges y x ∧ ¬ g.IsOptimized y ∧ g.HasCell y o := by
  induction x using k.sound.feeds_induction with
  | step x ih =>
    by_cases hopt : g.IsOptimized x
    swap
    · exact ⟨x, .refl, .refl, hopt, h⟩
    -- the cell is one of a producer in the same buffer
    obtain ⟨a, ha, hconn, hcell⟩ : ∃ a, g.Passes a x ∧
        Sharing.Connected g.sharing.edges a x ∧ g.HasCell a o := by
      have hx := hopt
      obtain ⟨into, offset, hst⟩ := hopt
      rcases k.linked.optimized hst with he | ⟨rfl, rfl, axis, -, hall⟩
      · obtain ⟨-, hreads, -⟩ := k.linked.view he
        obtain ⟨n, hget, -⟩ := Result.bind_eq_ok.1 hreads
        have hn := get_eq_ok.1 hget
        have hin := (input_eq_ok hn).1 hreads
        have hf : g.Feeds into x := .of_input hn hin
        exact ⟨into, k.passes_of_optimized hx hn hin (.inl rfl), .single ⟨_, he, .inl ⟨rfl, rfl⟩⟩,
          k.hasCell_of_view hst (fun h => k.sound.not_feeds_self (h ▸ hf)) h⟩
      · obtain ⟨n, slot, a, hn, htag, ha, hcell⟩ := k.hasCell_of_inPlace hst h
        obtain ⟨before, extent, he⟩ := hall slot a ((input_eq_ok hn).2 ha)
        exact ⟨a, k.passes_of_optimized hx hn ha (.inr htag), .single ⟨_, he, .inr ⟨rfl, rfl⟩⟩,
          hcell⟩
    obtain ⟨y, hpath, hconn', hy, hcell'⟩ := ih a ha.feeds hcell
    exact ⟨y, hpath.tail ha, hconn'.trans hconn, hy, hcell'⟩

/-- What a kernel writes leaves the cells of the nodes before it as they are. -/
theorem cell?_of_write (hb : g.Housed b) (hclosed : ∀ {a c}, g.Feeds a c → c ∈ done → a ∈ done)
    (hnew : id ∉ done) (hid : ¬ g.IsOptimized id) (hl : g.layout id = .ok l)
    (hnumber : b.number? id = some number) (hm : b.memory? id = some m) {xs : List Float}
    (hwrite : m.write l xs = (m', .ok ())) (hx : x ∈ done) (h : g.HasCell x o) :
    (b.setMemory number m').cell? x o = b.cell? x o := by
  obtain ⟨y, hpath, hconn, hopt, ly, dims, index, hly, hdims, hindex, rfl⟩ := k.exists_writer h
  have hy : y ∈ done := mem_of_passes hclosed hpath hx
  have hne : y ≠ id := fun he => hnew (he ▸ hy)
  rw [Bindings.cell?, Bindings.cell?, Bindings.memory?_setMemory hnumber hm]
  split
  swap
  · rfl
  next hnx =>
  have hmx : b.memory? x = some m :=
    (Bindings.memory?_congr (hnx.trans hnumber.symm)).trans hm
  rw [hmx]
  refine (Memory.holds_of_write (k.valid hl) hwrite).2 _ fun index' sizes hs hi heq => ?_
  have hfits : ∀ {z lz}, g.layout z = .ok lz → ∃ size, lz.footprint = .ok size := by
    intro z lz hlz
    obtain ⟨n, hn, -⟩ := layout_eq_ok.1 hlz
    obtain ⟨_, -, hroom⟩ := hb.room (contains_iff.2 ⟨n, hn⟩)
    obtain ⟨size, hf, -⟩ := hroom lz hlz
    exact ⟨size, hf⟩
  obtain ⟨sy, hfy⟩ := hfits hly
  obtain ⟨sid, hfid⟩ := hfits hl
  have hny : b.number? y = some number := (hb.same hconn).trans hnx
  obtain ⟨hoy, -⟩ := Layout.offset_eq_cellOf (k.valid hly) hfy hdims hindex
  obtain ⟨hoid, -⟩ := Layout.offset_eq_cellOf (k.valid hl) hfid hs hi
  exact k.writers_disjoint hne (hb.apart hny hnumber) hopt hid hly hl hfy hfid
    ⟨dims, hdims, hindex⟩ ⟨sizes, hs, hi⟩ hoy (heq ▸ hoid)

end Ready
end BufferFusion
