import Mathlib.Data.List.Basic
import Mathlib.Data.UInt
import Mathlib.Logic.Function.Basic

/-!
The text surfaces of the VGA module and the terminals that they show.

A surface is a grid of 25 rows and a ring of 128 rows that have left it at the top.  The video memory
shows 25 rows of the active surface.  Next to it stands a terminal of unbounded height, which never
scrolls and is fed with the glyphs of whole texts, read by a decoder of its own: a surface keeps the
last rows of one.
-/

namespace Uros.Gpu.Vga

abbrev Cell := UInt16

abbrev Row := Fin 80 → Cell

def cols : ℕ := 80
def rows : ℕ := 25
def histRows : ℕ := 128
def nsurfaces : ℕ := 4

def vgaCell (c : UInt8) : Cell := 0x0700 ||| c.toUInt16

def blankCell : Cell := vgaCell 0x20

def utf8Fold (cp : UInt32) : UInt8 :=
  if cp = 0x2013 ∨ cp = 0x2014 then 0x2D
  else if cp = 0x2018 ∨ cp = 0x2019 then 0x27
  else if cp = 0x201C ∨ cp = 0x201D then 0x22
  else if cp = 0x2022 then 0x2A
  else if cp = 0x2026 then 0x2E
  else if cp = 0x2190 then 0x3C
  else if cp = 0x2192 then 0x3E
  else if cp = 0x00A0 then 0x20
  else if cp < 0x80 then cp.toUInt8
  else 0x3F

structure Utf8 where
  left : ℕ
  cp : UInt32

def utf8Lead (u : Utf8) (b : UInt8) : Utf8 × Option UInt8 :=
  if b < 0x80 then (u, some b)
  else if b &&& 0xE0 = 0xC0 then (⟨1, (b &&& 0x1F).toUInt32⟩, none)
  else if b &&& 0xF0 = 0xE0 then (⟨2, (b &&& 0x0F).toUInt32⟩, none)
  else if b &&& 0xF8 = 0xF0 then (⟨3, (b &&& 0x07).toUInt32⟩, none)
  else (u, some 0x3F)

def utf8Step (u : Utf8) (b : UInt8) : Utf8 × Option UInt8 :=
  if 0 < u.left then
    if b &&& 0xC0 = 0x80 then
      let cp := (u.cp <<< 6) ||| (b &&& 0x3F).toUInt32
      (⟨u.left - 1, cp⟩, if u.left - 1 = 0 then some (utf8Fold cp) else none)
    else utf8Lead { u with left := 0 } b
  else utf8Lead u b

structure Surface where
  cells : ℕ → Cell
  curCol : ℕ
  curRow : ℕ
  utf8 : Utf8
  hist : ℕ → Row
  histHead : ℕ
  histCount : ℕ
  viewOff : ℕ

def Surface.row (s : Surface) (r : ℕ) : Row := fun c => s.cells (r * cols + c)

def scrollSurface (s : Surface) : Surface :=
  { s with
    hist := Function.update s.hist s.histHead (s.row 0)
    histHead := (s.histHead + 1) % histRows
    histCount := if s.histCount < histRows then s.histCount + 1 else s.histCount
    cells := fun i =>
      if i < (rows - 1) * cols then s.cells (i + cols)
      else if i < rows * cols then blankCell
      else s.cells i }

def settle (s : Surface) : Surface :=
  let s := if cols ≤ s.curCol then { s with curCol := 0, curRow := s.curRow + 1 } else s
  if rows ≤ s.curRow then { scrollSurface s with curRow := rows - 1 } else s

def emit (s : Surface) (c : UInt8) : Surface :=
  settle
    (if c = 0x0A then { s with curCol := 0, curRow := s.curRow + 1 }
    else if c = 0x0D then { s with curCol := 0 }
    else if c = 0x09 then { s with curCol := (s.curCol + 8) / 8 * 8 }
    else if c = 0x08 then { s with curCol := if 0 < s.curCol then s.curCol - 1 else s.curCol }
    else
      let off := s.curRow * cols + s.curCol
      { s with
        cells := if off < rows * cols then Function.update s.cells off (vgaCell c) else s.cells
        curCol := s.curCol + 1 })

def surfPutc (s : Surface) (b : UInt8) : Surface :=
  let r := utf8Step s.utf8 b
  let s := { s with utf8 := r.1 }
  match r.2 with
  | some c => emit s c
  | none => s

def Surface.histIndex (s : Surface) (i : ℕ) : ℕ := (s.histHead + histRows - s.histCount + i) % histRows

def Surface.window (s : Surface) (r : ℕ) : Row :=
  let ci : ℤ := s.histCount - s.viewOff + r
  if (s.histCount : ℤ) ≤ ci then s.row (ci - s.histCount).toNat
  else if 0 ≤ ci then s.hist (s.histIndex ci.toNat)
  else fun _ => blankCell

structure Display where
  fb : ℕ → Row
  surf : ℕ → Surface
  active : ℕ

def blit (p : Display) (sid : ℕ) : Display :=
  if nsurfaces ≤ sid then p
  else
    { p with
      fb := fun r =>
        if rows ≤ r then p.fb r
        else if (p.surf sid).viewOff = 0 then (p.surf sid).row r
        else (p.surf sid).window r }

def clearSurface (s : Surface) : Surface :=
  { s with
    cells := fun i => if i < rows * cols then blankCell else s.cells i
    curCol := 0
    curRow := 0
    utf8.left := 0
    histHead := 0
    histCount := 0
    viewOff := 0 }

def attach (p : Display) : Display :=
  blit { p with surf := fun k => if k < nsurfaces then clearSurface (p.surf k) else p.surf k,
                active := 0 } 0

def target (surface : ℕ) : ℕ := if nsurfaces ≤ surface then 0 else surface

def textPuts (p : Display) (surface : ℕ) (buf : List UInt8) : Display :=
  let k := target surface
  let p := { p with
    surf := Function.update p.surf k (buf.foldl surfPutc { p.surf k with viewOff := 0 }) }
  if k = p.active then blit p k else p

def textSetActive (p : Display) (surface : ℕ) : Display :=
  if nsurfaces ≤ surface then p else blit { p with active := surface } surface

def textScroll (p : Display) (delta : Int32) : Display :=
  let s := p.surf p.active
  let off := (Int32.ofNat s.viewOff + delta).toInt
  let off := if off < 0 then 0 else off
  let off := if (s.histCount : ℤ) < off then (s.histCount : ℤ) else off
  blit { p with surf := Function.update p.surf p.active { s with viewOff := off.toNat } } p.active

inductive Call where
  | puts (surface : ℕ) (buf : List UInt8)
  | setActive (surface : ℕ)
  | scroll (delta : Int32)

def step (p : Display) : Call → Display
  | .puts surface buf => textPuts p surface buf
  | .setActive surface => textSetActive p surface
  | .scroll delta => textScroll p delta

/-- A byte that continues a sequence. -/
def isCont (b : UInt8) : Bool := decide (0x80 ≤ b.toNat ∧ b.toNat < 0xC0)

/-- How many bytes follow a first byte, and the bits of the code point that it has. -/
def leadOf (b : ℕ) : Option (ℕ × ℕ) :=
  if b < 0x80 then some (0, b)
  else if b < 0xC0 then none
  else if b < 0xE0 then some (1, b % 32)
  else if b < 0xF0 then some (2, b % 16)
  else if b < 0xF8 then some (3, b % 8)
  else none

def codePoint (lead : ℕ) (conts : List UInt8) : ℕ :=
  conts.foldl (fun cp b => cp * 64 + b.toNat % 64) lead

def folded : List (ℕ × UInt8) :=
  [(0x2013, 0x2D), (0x2014, 0x2D), (0x2018, 0x27), (0x2019, 0x27), (0x201C, 0x22), (0x201D, 0x22),
    (0x2022, 0x2A), (0x2026, 0x2E), (0x2190, 0x3C), (0x2192, 0x3E), (0x00A0, 0x20)]

def glyph (cp : ℕ) : UInt8 := (folded.lookup cp).getD (if cp < 0x80 then cp.toUInt8 else 0x3F)

/-- The glyphs of a text, after `skip` bytes: one for each whole sequence, none for a sequence that
breaks off, and a question mark for a byte that begins none. -/
def glyphs : ℕ → List UInt8 → List UInt8
  | _, [] => []
  | skip + 1, _ :: rest => glyphs skip rest
  | 0, b :: rest =>
    match leadOf b.toNat with
    | none => 0x3F :: glyphs 0 rest
    | some (n, lead) =>
      let conts := (rest.take n).takeWhile isCont
      if conts.length = n then glyph (codePoint lead conts) :: glyphs n rest
      else glyphs conts.length rest

structure Terminal where
  line : ℕ → Row
  row : ℕ
  col : ℕ

namespace Terminal

def blank : Terminal := ⟨fun _ _ => blankCell, 0, 0⟩

def newline (t : Terminal) : Terminal := { t with row := t.row + 1, col := 0 }

def goto (t : Terminal) (col : ℕ) : Terminal := if col < cols then { t with col } else t.newline

def write (t : Terminal) (c : UInt8) : Terminal :=
  { t with line := fun r i => if r = t.row ∧ i.val = t.col then vgaCell c else t.line r i }

def emit (t : Terminal) (c : UInt8) : Terminal :=
  if c = 0x0A then t.newline
  else if c = 0x0D then t.goto 0
  else if c = 0x09 then t.goto ((t.col + 8) / 8 * 8)
  else if c = 0x08 then t.goto (t.col - 1)
  else (t.write c).goto (t.col + 1)

def height (t : Terminal) : ℕ := max rows (t.row + 1)

def lines (t : Terminal) : List Row := (List.range t.height).map t.line

def last (t : Terminal) : List Row := t.lines.drop (t.height - (histRows + rows))

def top (t : Terminal) : ℕ := t.row - (rows - 1)

def fed (text : List UInt8) : Terminal := (glyphs 0 text).foldl emit blank

end Terminal

/-- What the calls ask for: the text of each surface, the surface that is shown, and how far back
each one is scrolled. -/
structure Console where
  text : ℕ → List UInt8
  active : ℕ
  off : ℕ → ℕ

namespace Console

def init : Console := ⟨fun _ => [], 0, fun _ => 0⟩

/-- The rows above the grid that a surface still has. -/
def stored (c : Console) (k : ℕ) : ℕ := min histRows (Terminal.fed (c.text k)).top

def step (c : Console) : Call → Console
  | .puts surface buf =>
    { c with
      text := Function.update c.text (target surface) (c.text (target surface) ++ buf)
      off := Function.update c.off (target surface) 0 }
  | .setActive surface => if surface < nsurfaces then { c with active := surface } else c
  | .scroll delta =>
    -- the sum is one of C ints and wraps before it is clamped
    let off := (Int32.ofNat (c.off c.active) + delta).toInt
    { c with off := Function.update c.off c.active (max 0 (min off (c.stored c.active))).toNat }

end Console

namespace Surface

variable (s : Surface)

def history : List Row := (List.range s.histCount).map fun i => s.hist (s.histIndex i)

def grid : List Row := (List.range rows).map s.row

end Surface

def screen (p : Display) : List Row := (List.range rows).map p.fb

structure Follows (s : Surface) (t : Terminal) : Prop where
  col : s.curCol = t.col
  col_lt : t.col < cols
  row : s.curRow + t.top = t.row
  below : ∀ r, t.row < r → t.line r = fun _ => blankCell
  grid : ∀ r < rows, s.row r = t.line (t.top + r)
  head : s.histHead = t.top % histRows
  count : s.histCount = min histRows t.top
  hist : ∀ r < t.top, t.top ≤ r + histRows → s.hist (r % histRows) = t.line r

variable {s : Surface} {t : Terminal}

theorem Follows.row_lt (h : Follows s t) : s.curRow < rows := by
  have := h.row
  simp only [Terminal.top, rows] at *
  omega

theorem Follows.setCol (h : Follows s t) {c : ℕ} (hc : c < cols) :
    Follows { s with curCol := c } { t with col := c } :=
  { h with col := rfl, col_lt := hc }

theorem Follows.write (h : Follows s t) (c : UInt8) :
    Follows { s with cells := Function.update s.cells (s.curRow * cols + s.curCol) (vgaCell c) }
      (t.write c) := by
  have hcol := h.col
  have hcol_lt := h.col_lt
  have hrow := h.row
  refine { h with below := fun r hr => ?_, grid := fun r hr => ?_, hist := fun r hr hle => ?_ }
  · funext i
    simp only [Terminal.write, if_neg (show ¬(r = t.row ∧ i.val = t.col) from fun h =>
      absurd h.1 (Nat.ne_of_gt hr)), h.below r hr]
  · funext i
    have hi := i.isLt
    have hold := congrFun (h.grid r hr) i
    have hiff : r * cols + i = s.curRow * cols + s.curCol ↔
        t.top + r = t.row ∧ i.val = t.col := by
      simp only [cols] at *
      omega
    change Function.update s.cells _ _ (r * cols + i) =
      if t.top + r = t.row ∧ i.val = t.col then vgaCell c else t.line (t.top + r) i
    simp only [Function.update_apply, hiff]
    exact if_congr Iff.rfl rfl hold
  · funext i
    have hne : ¬(r = t.row ∧ i.val = t.col) := by
      simp only [Terminal.write, Terminal.top] at hr
      omega
    simp only [Terminal.write, if_neg hne]
    exact congrFun (h.hist r hr hle) i

theorem row_scrollSurface (s : Surface) {r : ℕ} (hr : r < rows) :
    (scrollSurface s).row r = if r + 1 < rows then s.row (r + 1) else fun _ => blankCell := by
  funext i
  have hi := i.isLt
  split
  next hlt =>
    have hidx : (r + 1) * cols + i = r * cols + i + cols := by
      simp only [cols]
      omega
    simp only [Surface.row, scrollSurface, hidx]
    exact if_pos (by simp only [rows, cols] at *; omega)
  next hge =>
    simp only [Surface.row, scrollSurface]
    rw [if_neg (by simp only [rows, cols] at *; omega),
      if_pos (by simp only [rows, cols] at *; omega)]

theorem Follows.scroll (h : Follows s t) (hrow : s.curRow = rows - 1) :
    Follows { scrollSurface s with curCol := 0, curRow := rows - 1 } t.newline := by
  have htop : t.newline.top = t.top + 1 := by
    have := h.row
    simp only [Terminal.top, Terminal.newline, rows] at *
    omega
  have hlast : t.row = t.top + (rows - 1) := by
    have := h.row
    omega
  refine ⟨rfl, by simp [Terminal.newline, cols], ?_, ?_, ?_, ?_, ?_, ?_⟩
  · rw [htop]
    simp only [Terminal.newline]
    omega
  · intro r hr
    exact h.below r (Nat.lt_of_succ_lt hr)
  · intro r hr
    refine (row_scrollSurface s hr).trans ?_
    rw [htop]
    split
    next hlt =>
      rw [h.grid (r + 1) hlt, Nat.add_comm r 1, ← Nat.add_assoc]
      rfl
    next hge => exact (h.below _ (by omega)).symm
  · rw [htop]
    simp [scrollSurface, h.head, histRows]
  · rw [htop]
    simp only [scrollSurface, h.count, histRows]
    split <;> omega
  · intro r hr hle
    rw [htop] at hr hle
    simp only [scrollSurface, Terminal.newline, h.head, Function.update_apply]
    rcases Nat.lt_succ_iff_lt_or_eq.mp hr with hlt | rfl
    · rw [if_neg (by simp only [histRows] at *; omega)]
      exact h.hist r hlt (by omega)
    · rw [if_pos rfl, h.grid 0 (by decide)]
      rfl

theorem Follows.down (h : Follows s t) (hrow : s.curRow < rows - 1) :
    Follows { s with curCol := 0, curRow := s.curRow + 1 } t.newline := by
  have hzero : t.top = 0 ∧ t.newline.top = 0 := by
    have := h.row
    simp only [Terminal.top, Terminal.newline, rows] at *
    omega
  have hrow' := h.row
  refine ⟨rfl, by simp [Terminal.newline, cols], ?_, ?_, ?_, ?_, ?_, ?_⟩
  · simp only [Terminal.newline] at hzero ⊢
    omega
  · intro r hr
    exact h.below r (Nat.lt_of_succ_lt hr)
  · intro r hr
    rw [hzero.2]
    exact hzero.1 ▸ h.grid r hr
  · rw [hzero.2]
    exact hzero.1 ▸ h.head
  · rw [hzero.2]
    exact hzero.1 ▸ h.count
  · intro r hr
    rw [hzero.2] at hr
    exact absurd hr (Nat.not_lt_zero r)

theorem cols_pos : 0 < cols := by decide

theorem settle_of_lt (hcol : s.curCol < cols) (hrow : s.curRow < rows) : settle s = s := by
  simp only [settle, if_neg (Nat.not_le.mpr hcol), if_neg (Nat.not_le.mpr hrow)]

theorem settle_of_le (hcol : cols ≤ s.curCol) :
    settle s = settle { s with curCol := 0, curRow := s.curRow + 1 } := by
  have h0 := Nat.not_le.mpr cols_pos
  simp only [settle, if_pos hcol, if_neg h0]

theorem Follows.newline (h : Follows s t) :
    Follows (settle { s with curCol := 0, curRow := s.curRow + 1 }) t.newline := by
  rcases Nat.lt_or_ge s.curRow (rows - 1) with hlt | hge
  · have hsettle : settle { s with curCol := 0, curRow := s.curRow + 1 } =
        { s with curCol := 0, curRow := s.curRow + 1 } :=
      settle_of_lt cols_pos (Nat.add_lt_of_lt_sub hlt)
    rw [hsettle]
    exact h.down hlt
  · have hrow : s.curRow = rows - 1 := Nat.le_antisymm (Nat.le_pred_of_lt h.row_lt) hge
    have h0 := Nat.not_le.mpr cols_pos
    have hle : rows ≤ s.curRow + 1 := by
      rw [hrow]
      decide
    simp only [settle, if_neg h0, if_pos hle]
    exact h.scroll hrow

theorem Follows.goto (h : Follows s t) (c : ℕ) :
    Follows (settle { s with curCol := c }) (t.goto c) := by
  rw [Terminal.goto]
  split
  next hlt =>
    have hsettle : settle { s with curCol := c } = { s with curCol := c } :=
      settle_of_lt hlt h.row_lt
    rw [hsettle]
    exact h.setCol hlt
  next hge =>
    have hsettle := settle_of_le (s := { s with curCol := c }) (Nat.not_lt.mp hge)
    rw [hsettle]
    exact h.newline

theorem Follows.emit (h : Follows s t) (c : UInt8) : Follows (emit s c) (t.emit c) := by
  have hoff : s.curRow * cols + s.curCol < rows * cols := by
    have := h.row_lt
    have := h.col
    have := h.col_lt
    simp only [rows, cols] at *
    omega
  simp only [Vga.emit, Terminal.emit]
  repeat' split
  · exact h.newline
  · exact h.goto 0
  · rw [← h.col]
    exact h.goto _
  · rename_i hpos
    rw [← h.col]
    exact h.goto _
  · rename_i hpos
    rw [← h.col, Nat.eq_zero_of_not_pos hpos]
    exact h.goto 0
  · rw [← h.col]
    exact (h.write c).goto _

theorem Follows.setUtf8 (h : Follows s t) (u : Utf8) : Follows { s with utf8 := u } t :=
  { h with }

theorem Follows.putc (h : Follows s t) (b : UInt8) :
    Follows (surfPutc s b) ((utf8Step s.utf8 b).2.toList.foldl Terminal.emit t) := by
  have hset := h.setUtf8 (utf8Step s.utf8 b).1
  simp only [surfPutc]
  cases (utf8Step s.utf8 b).2 with
  | none => exact hset
  | some c => exact hset.emit c

theorem Follows.scrolled (h : Follows s t) (off : ℕ) : Follows { s with viewOff := off } t :=
  { h with }

theorem follows_clear (s : Surface) : Follows (clearSurface s) Terminal.blank := by
  refine ⟨rfl, cols_pos, rfl, fun _ _ => rfl, ?_, rfl, rfl, ?_⟩
  · intro r hr
    funext i
    have hi := i.isLt
    simp only [Surface.row, clearSurface, Terminal.blank]
    rw [if_pos (by simp only [rows, cols] at *; omega)]
  · intro r hr
    exact absurd hr (Nat.not_lt_zero r)

theorem Follows.history_row (h : Follows s t) {i : ℕ} (hi : i < s.histCount) :
    s.hist (s.histIndex i) = t.line (t.top - s.histCount + i) := by
  have hcount := h.count
  have hidx : s.histIndex i = (t.top - s.histCount + i) % histRows := by
    simp only [Surface.histIndex, h.head, histRows] at *
    omega
  rw [hidx]
  exact h.hist _ (by omega) (by omega)

theorem Terminal.height_eq (t : Terminal) : t.height = t.top + rows := by
  simp only [Terminal.height, Terminal.top, rows]
  omega

theorem Terminal.length_last (t : Terminal) : t.last.length = min histRows t.top + rows := by
  simp only [Terminal.last, Terminal.lines, List.length_drop, List.length_map, List.length_range,
    t.height_eq]
  omega

theorem Terminal.getElem_last (t : Terminal) {i : ℕ} (hi : i < t.last.length) :
    t.last[i] = t.line (t.top - histRows + i) := by
  simp only [Terminal.last, Terminal.lines, List.getElem_drop, List.getElem_map, List.getElem_range,
    t.height_eq, Nat.add_sub_add_right]

theorem Follows.kept (h : Follows s t) : s.history ++ s.grid = t.last := by
  have hcount := h.count
  refine List.ext_getElem ?_ fun i hi hi' => ?_
  · rw [t.length_last, ← hcount]
    simp [Surface.history, Surface.grid]
  · rw [t.getElem_last hi', List.getElem_append]
    split
    next hlt =>
      have hlt' : i < s.histCount := by simpa [Surface.history] using hlt
      have hstart : t.top - s.histCount = t.top - histRows := by omega
      simp only [Surface.history, List.getElem_map, List.getElem_range]
      rw [h.history_row hlt', hstart]
    next hge =>
      have hge' : s.histCount ≤ i := by simpa [Surface.history] using hge
      have hlen : (s.history ++ s.grid).length = s.histCount + rows := by
        simp [Surface.history, Surface.grid]
      simp only [Surface.history, Surface.grid, List.getElem_map, List.getElem_range,
        List.length_map, List.length_range]
      have hrow : t.top + (i - s.histCount) = t.top - histRows + i := by omega
      rw [h.grid _ (by omega), hrow]

def Surface.view (s : Surface) : List Row :=
  ((s.history ++ s.grid).drop (s.histCount - s.viewOff)).take rows

theorem view_eq_window (hoff : s.viewOff ≤ s.histCount) :
    s.view = (List.range rows).map s.window := by
  have hlen : (s.history ++ s.grid).length = s.histCount + rows := by
    simp [Surface.history, Surface.grid]
  refine List.ext_getElem ?_ fun r hr hr' => ?_
  · simp only [Surface.view, List.length_take, List.length_drop, hlen, List.length_map,
      List.length_range]
    omega
  · have hr25 : r < rows := by simpa using hr'
    simp only [Surface.view, List.getElem_take, List.getElem_drop, List.getElem_map,
      List.getElem_range, List.getElem_append, Surface.window]
    rcases Nat.lt_or_ge r s.viewOff with hlt | hge
    · rw [dif_pos (by simp only [Surface.history, List.length_map, List.length_range]; omega),
        if_neg (by omega), if_pos (by omega)]
      simp only [Surface.history, List.getElem_map, List.getElem_range]
      congr 2
      omega
    · rw [dif_neg (by simp only [Surface.history, List.length_map, List.length_range]; omega),
        if_pos (by omega)]
      simp only [Surface.grid, Surface.history, List.getElem_map, List.getElem_range,
        List.length_map, List.length_range]
      congr 1
      omega

theorem window_zero (s : Surface) (hoff : s.viewOff = 0) : s.window = s.row := by
  funext r
  simp only [Surface.window, hoff]
  rw [if_pos (by omega)]
  congr 1
  omega

structure Shown (p : Display) : Prop where
  active : p.active < nsurfaces
  fb : ∀ r < rows, p.fb r = (p.surf p.active).window r

theorem shown_blit {p : Display} {sid : ℕ} (hp : p.active = sid) (h : sid < nsurfaces) :
    Shown (blit p sid) := by
  subst hp
  have hle := Nat.not_le.mpr h
  refine ⟨by simpa only [blit, if_neg hle] using h, fun r hr => ?_⟩
  simp only [blit, if_neg hle, if_neg (Nat.not_le.mpr hr)]
  split
  next hoff => rw [window_zero _ hoff]
  next => rfl

@[simp]
theorem blit_surf (p : Display) (sid : ℕ) : (blit p sid).surf = p.surf := by
  unfold blit
  split <;> rfl

theorem blit_active (p : Display) (sid : ℕ) : (blit p sid).active = p.active := by
  unfold blit
  split <;> rfl

theorem target_lt (surface : ℕ) : target surface < nsurfaces := by
  unfold target
  split
  · decide
  · omega

theorem byte_cases (b : UInt8) :
    (b &&& 0xC0 = 0x80 ↔ isCont b = true) ∧ (b &&& 0x3F).toNat = b.toNat % 64 ∧
    (b &&& 0x1F).toNat = b.toNat % 32 ∧ (b &&& 0x0F).toNat = b.toNat % 16 ∧
    (b &&& 0x07).toNat = b.toNat % 8 ∧
    (b &&& 0xE0 = 0xC0 ↔ 0xC0 ≤ b.toNat ∧ b.toNat < 0xE0) ∧
    (b &&& 0xF0 = 0xE0 ↔ 0xE0 ≤ b.toNat ∧ b.toNat < 0xF0) ∧
    (b &&& 0xF8 = 0xF0 ↔ 0xF0 ≤ b.toNat ∧ b.toNat < 0xF8) := by
  have hall : ∀ n : Fin 256, let b := UInt8.ofFin n
      (b &&& 0xC0 = 0x80 ↔ isCont b = true) ∧ (b &&& 0x3F).toNat = b.toNat % 64 ∧
      (b &&& 0x1F).toNat = b.toNat % 32 ∧ (b &&& 0x0F).toNat = b.toNat % 16 ∧
      (b &&& 0x07).toNat = b.toNat % 8 ∧
      (b &&& 0xE0 = 0xC0 ↔ 0xC0 ≤ b.toNat ∧ b.toNat < 0xE0) ∧
      (b &&& 0xF0 = 0xE0 ↔ 0xE0 ≤ b.toNat ∧ b.toNat < 0xF0) ∧
      (b &&& 0xF8 = 0xF0 ↔ 0xF0 ≤ b.toNat ∧ b.toNat < 0xF8) := by decide +kernel
  exact hall b.toFin

theorem utf8Fold_eq (cp : UInt32) : utf8Fold cp = glyph cp.toNat := by
  by_cases hmem : cp ∈ folded.map fun e => UInt32.ofNat e.1
  · have hall : ∀ e ∈ folded, utf8Fold (.ofNat e.1) = glyph (UInt32.ofNat e.1).toNat := by decide
    obtain ⟨e, he, rfl⟩ := List.mem_map.mp hmem
    exact hall e he
  · have hnone : folded.lookup cp.toNat = none := by
      rw [List.lookup_eq_none_iff]
      intro e he
      have hne : cp.toNat ≠ e.1 := fun h =>
        hmem (List.mem_map.mpr ⟨e, he, by rw [← h, UInt32.ofNat_toNat]⟩)
      exact bne_iff_ne.mpr hne
    have hne : ∀ n ∈ folded.map fun e => UInt32.ofNat e.1, cp ≠ n := fun n hn h => hmem (h ▸ hn)
    simp only [folded, List.map_cons, List.map_nil, List.forall_mem_cons, UInt32.reduceOfNat] at hne
    have hlt : cp < 0x80 ↔ cp.toNat < 0x80 := UInt32.lt_iff_toNat_lt
    simp only [glyph, hnone, Option.getD_none, utf8Fold, hne, or_self, if_false, hlt]
    rfl

theorem glyph_ascii {n : ℕ} (hn : n < 0x80) : glyph n = n.toUInt8 := by
  have hne : folded.lookup n = none := by
    rw [List.lookup_eq_none_iff]
    intro e he
    have : ∀ e ∈ folded, 0x80 ≤ e.1 := by decide
    have := this e he
    simp
    omega
  rw [glyph, hne, Option.getD_none, if_pos hn]

theorem cp_next {cp : UInt32} (hcp : cp.toNat * 64 < 2 ^ 32) (b : UInt8) :
    ((cp <<< 6) ||| (b &&& 0x3F).toUInt32).toNat = cp.toNat * 64 + b.toNat % 64 := by
  have hb : (b &&& 0x3F).toUInt32.toNat = b.toNat % 64 := (byte_cases b).2.1
  have hshift : (cp <<< 6).toNat = cp.toNat <<< 6 := by
    rw [UInt32.toNat_shiftLeft]
    simp [Nat.shiftLeft_eq]
    omega
  rw [UInt32.toNat_or, hb, hshift, ← Nat.shiftLeft_add_eq_or_of_lt (Nat.mod_lt _ (by decide)),
    Nat.shiftLeft_eq]

/-- The glyphs that the surface emits for a text. -/
def emitted (u : Utf8) : List UInt8 → List UInt8
  | [] => []
  | b :: rest => (utf8Step u b).2.toList ++ emitted (utf8Step u b).1 rest

/-- What follows a first byte of which `n` bytes are missing. -/
def rest (n cp : ℕ) (bytes : List UInt8) : List UInt8 :=
  let conts := (bytes.take n).takeWhile isCont
  if conts.length = n then glyph (codePoint cp conts) :: glyphs n bytes
  else glyphs conts.length bytes

theorem leadOf_bound {b n lead : ℕ} (h : leadOf b = some (n, lead)) (hn : 0 < n) :
    n ≤ 3 ∧ lead < 64 := by
  unfold leadOf at h
  split_ifs at h <;> cases h <;> omega

theorem leadOf_zero {b lead : ℕ} (h : leadOf b = some (0, lead)) : lead = b ∧ b < 0x80 := by
  unfold leadOf at h
  split_ifs at h with h0 <;> cases h
  exact ⟨rfl, h0⟩

theorem utf8Lead_eq (u : Utf8) (b : UInt8) :
    (leadOf b.toNat = none → utf8Lead u b = (u, some 0x3F)) ∧
    (∀ lead, leadOf b.toNat = some (0, lead) → utf8Lead u b = (u, some b)) ∧
    ∀ n lead, leadOf b.toNat = some (n + 1, lead) →
      utf8Lead u b = (⟨n + 1, .ofNat lead⟩, none) := by
  obtain ⟨-, -, h32, h16, h8, h2, h3, h4⟩ := byte_cases b
  have hlt : b < 0x80 ↔ b.toNat < 0x80 := UInt8.lt_iff_toNat_lt
  have hbits (x : UInt8) : x.toUInt32 = .ofNat x.toNat := by
    have hx := x.toNat_lt
    rw [← UInt32.toNat_inj, UInt32.toNat_ofNat', UInt8.toNat_toUInt32, Nat.mod_eq_of_lt (by omega)]
  simp only [utf8Lead, leadOf, h2, h3, h4, hlt, hbits, h32, h16, h8]
  refine ⟨fun h => ?_, fun lead h => ?_, fun n lead h => ?_⟩
  all_goals split_ifs at h ⊢ <;> first | rfl | (cases h <;> rfl) | omega

/-- From every state the surface emits the glyphs of the text that is left. -/
def Reads (bytes : List UInt8) : Prop :=
  ∀ u : Utf8, (u.left = 0 → emitted u bytes = glyphs 0 bytes) ∧
    (0 < u.left → (u.cp.toNat + 1) * 64 ^ u.left ≤ 2 ^ 32 →
      emitted u bytes = rest u.left u.cp.toNat bytes)

theorem Reads.lead {bytes : List UInt8} (h : Reads bytes) {u : Utf8} (hu : u.left = 0) (b : UInt8) :
    (utf8Lead u b).2.toList ++ emitted (utf8Lead u b).1 bytes = glyphs 0 (b :: bytes) := by
  obtain ⟨hnone, hzero, hsucc⟩ := utf8Lead_eq u b
  rw [glyphs]
  cases hlead : leadOf b.toNat with
  | none =>
    rw [hnone hlead]
    exact congrArg (0x3F :: ·) ((h u).1 hu)
  | some e =>
    obtain ⟨n, lead⟩ := e
    cases n with
    | zero =>
      rw [hzero lead hlead]
      obtain ⟨rfl, hlt⟩ := leadOf_zero hlead
      simp [(h u).1 hu, codePoint, glyph_ascii hlt]
    | succ n =>
      obtain ⟨hn, hcp⟩ := leadOf_bound hlead (Nat.succ_pos n)
      have hval : (UInt32.ofNat lead).toNat = lead := by
        rw [UInt32.toNat_ofNat']
        omega
      have hpow : 64 ^ (n + 1) ≤ 64 ^ 3 := Nat.pow_le_pow_right (by decide) hn
      have hnext := (h ⟨n + 1, .ofNat lead⟩).2 (Nat.succ_pos n) <| by
        dsimp only
        rw [hval]
        calc (lead + 1) * 64 ^ (n + 1) ≤ 64 * 64 ^ 3 := Nat.mul_le_mul hcp hpow
          _ ≤ 2 ^ 32 := by decide
      rw [hsucc n lead hlead, Option.toList_none, List.nil_append, hnext]
      dsimp only
      rw [hval]
      rfl

theorem Reads.continued {bytes : List UInt8} (h : Reads bytes) {u : Utf8} {n : ℕ}
    (hleft : u.left = n + 1) (hcp : (u.cp.toNat + 1) * 64 ^ (n + 1) ≤ 2 ^ 32) {b : UInt8}
    (hb : isCont b = true) : emitted u (b :: bytes) = rest (n + 1) u.cp.toNat (b :: bytes) := by
  have hbound : (u.cp.toNat * 64 + b.toNat % 64 + 1) * 64 ^ n ≤ 2 ^ 32 := by
    refine le_trans ?_ hcp
    rw [Nat.pow_succ', ← Nat.mul_assoc]
    exact Nat.mul_le_mul_right _ (by omega)
  have hsmall : u.cp.toNat * 64 < 2 ^ 32 := by
    have := Nat.le_mul_of_pos_right (u.cp.toNat * 64 + b.toNat % 64 + 1)
      (Nat.pow_pos (n := n) (show 0 < 64 by decide))
    omega
  rw [emitted, utf8Step, if_pos (by omega), if_pos ((byte_cases b).1.mpr hb), hleft,
    Nat.add_sub_cancel]
  dsimp only
  rw [utf8Fold_eq, cp_next hsmall]
  cases n with
  | zero => simp [rest, hb, codePoint, glyphs, (h ⟨0, _⟩).1]
  | succ m =>
    rw [(h ⟨m + 1, _⟩).2 (Nat.succ_pos m) (by rw [cp_next hsmall]; exact hbound)]
    dsimp only
    rw [cp_next hsmall]
    simp [rest, hb, codePoint, glyphs]

theorem reads (bytes : List UInt8) : Reads bytes := by
  induction bytes with
  | nil =>
    refine fun u => ⟨fun _ => rfl, fun hpos _ => ?_⟩
    simp [emitted, rest, glyphs, Nat.ne_of_lt hpos]
  | cons b bytes ih =>
    refine fun u => ⟨fun hu => ?_, fun hpos hcp => ?_⟩
    · rw [emitted, utf8Step, if_neg (by omega)]
      exact ih.lead hu b
    · obtain ⟨n, hn⟩ : ∃ n, u.left = n + 1 := ⟨u.left - 1, by omega⟩
      rw [hn] at hcp ⊢
      by_cases hb : isCont b = true
      · exact ih.continued hn hcp hb
      · -- the sequence breaks off and the byte is read afresh
        rw [emitted, utf8Step, if_pos hpos, if_neg (fun h => hb ((byte_cases b).1.mp h)),
          ih.lead rfl]
        simp [rest, hb]

/-- The state of the decoder after a text. -/
def decoded (u : Utf8) (text : List UInt8) : Utf8 := text.foldl (fun u b => (utf8Step u b).1) u

theorem emitted_append (u : Utf8) (text buf : List UInt8) :
    emitted u (text ++ buf) = emitted u text ++ emitted (decoded u text) buf := by
  induction text generalizing u with
  | nil => rfl
  | cons b text ih => simp only [List.cons_append, emitted, ih, List.append_assoc, decoded,
      List.foldl_cons]

theorem settle_utf8 (s : Surface) : (settle s).utf8 = s.utf8 ∧ (settle s).viewOff = s.viewOff := by
  simp only [settle]
  repeat' split
  all_goals exact ⟨rfl, rfl⟩

theorem emit_utf8 (s : Surface) (c : UInt8) :
    (emit s c).utf8 = s.utf8 ∧ (emit s c).viewOff = s.viewOff := by
  simp only [emit, settle_utf8]
  repeat' split
  all_goals exact ⟨rfl, rfl⟩

theorem surfPutc_utf8 (s : Surface) (b : UInt8) :
    (surfPutc s b).utf8 = (utf8Step s.utf8 b).1 ∧ (surfPutc s b).viewOff = s.viewOff := by
  simp only [surfPutc]
  split
  · exact emit_utf8 _ _
  · exact ⟨rfl, rfl⟩

theorem puts_utf8 (s : Surface) (buf : List UInt8) :
    (buf.foldl surfPutc s).utf8 = decoded s.utf8 buf ∧
      (buf.foldl surfPutc s).viewOff = s.viewOff := by
  induction buf generalizing s with
  | nil => exact ⟨rfl, rfl⟩
  | cons b buf ih =>
    obtain ⟨hutf8, hoff⟩ := surfPutc_utf8 s b
    rw [List.foldl_cons, (ih _).1, (ih _).2, hutf8, hoff]
    exact ⟨rfl, rfl⟩

theorem Follows.puts (h : Follows s t) (buf : List UInt8) :
    Follows (buf.foldl surfPutc s) ((emitted s.utf8 buf).foldl Terminal.emit t) := by
  induction buf generalizing s t with
  | nil => exact h
  | cons b buf ih =>
    have hnext := ih (h.putc b)
    rw [(surfPutc_utf8 s b).1] at hnext
    rw [emitted, List.foldl_append]
    exact hnext

/-- The surface stands where its text has brought it, with the decoder in the middle of a sequence
where the text ends in one. -/
def Shows (s : Surface) (text : List UInt8) : Prop :=
  ∃ u : Utf8, u.left = 0 ∧ s.utf8 = decoded u text ∧ Follows s (Terminal.fed text)

theorem Shows.puts {text : List UInt8} (h : Shows s text) (buf : List UInt8) :
    Shows (buf.foldl surfPutc s) (text ++ buf) := by
  obtain ⟨u, hu, hutf8, hfollows⟩ := h
  have hfed (text : List UInt8) : Terminal.fed text = (emitted u text).foldl Terminal.emit .blank := by
    rw [Terminal.fed, (reads text u).1 hu]
  refine ⟨u, hu, ?_, ?_⟩
  · rw [(puts_utf8 s buf).1, hutf8, decoded, decoded, decoded, List.foldl_append]
  · rw [hfed, emitted_append, List.foldl_append, ← hfed, ← hutf8]
    exact hfollows.puts buf

theorem Shows.scrolled {text : List UInt8} (h : Shows s text) (off : ℕ) :
    Shows { s with viewOff := off } text := by
  obtain ⟨u, hu, hutf8, hfollows⟩ := h
  exact ⟨u, hu, hutf8, hfollows.scrolled off⟩

structure Inv (c : Console) (p : Display) : Prop where
  shown : Shown p
  active : p.active = c.active
  shows : ∀ k < nsurfaces, Shows (p.surf k) (c.text k)
  off : ∀ k < nsurfaces, (p.surf k).viewOff = c.off k
  off_le : ∀ k < nsurfaces, (p.surf k).viewOff ≤ (p.surf k).histCount

variable {c : Console} {p : Display}

def touched (p : Display) : Call → Option ℕ
  | .puts surface _ => some (target surface)
  | .setActive _ => none
  | .scroll _ => some p.active

theorem step_surf_of_ne (p : Display) (call : Call) {k : ℕ} (hk : touched p call ≠ some k) :
    (step p call).surf k = p.surf k := by
  cases call with
  | puts surface buf =>
    have hne : k ≠ target surface := fun h => hk (congrArg some h.symm)
    simp only [step, textPuts]
    split
    · rw [blit_surf]
      exact Function.update_of_ne hne _ _
    · exact Function.update_of_ne hne _ _
  | setActive surface =>
    simp only [step, textSetActive]
    split
    · rfl
    · rw [blit_surf]
  | scroll delta =>
    have hne : k ≠ p.active := fun h => hk (congrArg some h.symm)
    simp only [step, textScroll, blit_surf, Function.update_of_ne hne]

theorem textPuts_surf (p : Display) (surface : ℕ) (buf : List UInt8) :
    (textPuts p surface buf).surf (target surface) =
      buf.foldl surfPutc { p.surf (target surface) with viewOff := 0 } := by
  simp only [textPuts]
  split
  · rw [blit_surf]
    exact Function.update_self _ _ _
  · exact Function.update_self _ _ _

theorem textPuts_active (p : Display) (surface : ℕ) (buf : List UInt8) :
    (textPuts p surface buf).active = p.active := by
  simp only [textPuts]
  split
  · exact blit_active _ _
  · rfl

theorem Shown.puts (h : Shown p) (surface : ℕ) (buf : List UInt8) :
    Shown (textPuts p surface buf) := by
  simp only [textPuts]
  split
  next hactive =>
    exact shown_blit hactive.symm (target_lt surface)
  next hne =>
    refine ⟨h.active, fun r hr => ?_⟩
    simp only [Function.update_of_ne (Ne.symm hne)]
    exact h.fb r hr

theorem Shown.setActive (h : Shown p) (surface : ℕ) : Shown (textSetActive p surface) := by
  rw [textSetActive]
  split
  · exact h
  next hlt => exact shown_blit rfl (Nat.not_le.mp hlt)

theorem Inv.puts (h : Inv c p) (surface : ℕ) (buf : List UInt8) :
    Inv (c.step (.puts surface buf)) (textPuts p surface buf) := by
  have hself := textPuts_surf p surface buf
  have hsame {k : ℕ} (hk : k ≠ target surface) : (textPuts p surface buf).surf k = p.surf k :=
    step_surf_of_ne p (.puts surface buf) fun h => hk (Option.some.inj h).symm
  have hoff := (puts_utf8 { p.surf (target surface) with viewOff := 0 } buf).2
  refine ⟨h.shown.puts surface buf, ?_, fun k hk => ?_, fun k hk => ?_, fun k hk => ?_⟩
  · rw [textPuts_active]
    exact h.active
  all_goals by_cases heq : k = target surface
  · subst heq
    simp only [hself, Console.step, Function.update_self]
    exact ((h.shows _ hk).scrolled 0).puts buf
  · simp only [hsame heq, Console.step, Function.update_of_ne heq]
    exact h.shows k hk
  · subst heq
    simp only [hself, Console.step, Function.update_self, hoff]
  · simp only [hsame heq, Console.step, Function.update_of_ne heq]
    exact h.off k hk
  · subst heq
    rw [hself, hoff]
    exact Nat.zero_le _
  · rw [hsame heq]
    exact h.off_le k hk

theorem Inv.setActive (h : Inv c p) (surface : ℕ) :
    Inv (c.step (.setActive surface)) (textSetActive p surface) := by
  have hsame (k : ℕ) : (textSetActive p surface).surf k = p.surf k :=
    step_surf_of_ne p (.setActive surface) (by simp [touched])
  have hconsole : (c.step (.setActive surface)).text = c.text ∧
      (c.step (.setActive surface)).off = c.off := by
    simp only [Console.step]
    split <;> exact ⟨rfl, rfl⟩
  refine ⟨h.shown.setActive surface, ?_, fun k hk => ?_, fun k hk => ?_, fun k hk => ?_⟩
  · simp only [textSetActive, Console.step, ← Nat.not_le, ite_not, apply_ite Display.active,
      apply_ite Console.active, blit_active, h.active]
  · rw [hsame, hconsole.1]
    exact h.shows k hk
  · rw [hsame, hconsole.2]
    exact h.off k hk
  · rw [hsame]
    exact h.off_le k hk

theorem Inv.stored (h : Inv c p) {k : ℕ} (hk : k < nsurfaces) : (p.surf k).histCount = c.stored k := by
  obtain ⟨_, -, -, hfollows⟩ := h.shows k hk
  exact hfollows.count

theorem textScroll_surf (h : Inv c p) (delta : Int32) :
    (textScroll p delta).surf p.active =
      { p.surf p.active with viewOff := (c.step (.scroll delta)).off c.active } := by
  have hoff := h.off _ h.shown.active
  have hstored := h.stored h.shown.active
  rw [h.active] at hoff hstored
  simp only [textScroll, blit_surf, Console.step, Function.update_self, h.active, hoff, hstored]
  congr 2
  split <;> split <;> omega

theorem Inv.scroll (h : Inv c p) (delta : Int32) :
    Inv (c.step (.scroll delta)) (textScroll p delta) := by
  have hself := textScroll_surf h delta
  have hsame {k : ℕ} (hk : k ≠ p.active) : (textScroll p delta).surf k = p.surf k :=
    step_surf_of_ne p (.scroll delta) fun h => hk (Option.some.inj h).symm
  refine ⟨shown_blit rfl h.shown.active, ?_, fun k hk => ?_, fun k hk => ?_, fun k hk => ?_⟩
  · rw [textScroll, blit_active]
    exact h.active
  all_goals by_cases heq : k = p.active
  · subst heq
    rw [hself]
    exact (h.shows _ hk).scrolled _
  · rw [hsame heq]
    exact h.shows k hk
  · subst heq
    rw [hself, h.active]
  · rw [hsame heq, h.off k hk]
    simp only [Console.step, Function.update_of_ne (h.active ▸ heq)]
  · subst heq
    have hstored := h.stored hk
    rw [h.active] at hstored
    rw [hself]
    simp only [Console.step, Function.update_self, h.active, hstored]
    omega
  · rw [hsame heq]
    exact h.off_le k hk

theorem Inv.step (h : Inv c p) (call : Call) : Inv (c.step call) (step p call) := by
  cases call with
  | puts surface buf => exact h.puts surface buf
  | setActive surface => exact h.setActive surface
  | scroll delta => exact h.scroll delta

theorem Inv.run (h : Inv c p) (calls : List Call) :
    Inv (calls.foldl Console.step c) (calls.foldl Vga.step p) := by
  induction calls generalizing c p with
  | nil => exact h
  | cons call calls ih => exact ih (h.step call)

theorem inv_attach (p : Display) : Inv .init (attach p) := by
  have hsurf {k : ℕ} (hk : k < nsurfaces) : (attach p).surf k = clearSurface (p.surf k) := by
    rw [attach, blit_surf]
    exact if_pos hk
  have hpos : 0 < nsurfaces := by decide
  refine ⟨shown_blit rfl hpos, blit_active _ _, fun k hk => ?_, fun k hk => ?_, fun k hk => ?_⟩
  · rw [hsurf hk]
    exact ⟨{ (p.surf k).utf8 with left := 0 }, rfl, rfl, follows_clear (p.surf k)⟩
  · rw [hsurf hk]
    rfl
  · rw [hsurf hk]
    exact Nat.le_refl 0

/-- After any calls each surface keeps the last rows of the terminal that was fed with the glyphs of
the text sent to it, with the cursor in the grid.  The video memory is the window of the surface that
was made active last, at the offset to which that one was scrolled, and a call changes at most one
surface. -/
theorem surfaces_are_terminals (p : Display) (calls : List Call) :
    let q := calls.foldl step (attach p)
    let c := calls.foldl Console.step .init
    (∀ k < nsurfaces,
      (q.surf k).history ++ (q.surf k).grid = (Terminal.fed (c.text k)).last ∧
      (q.surf k).curCol = (Terminal.fed (c.text k)).col ∧ (q.surf k).curCol < cols ∧
      (q.surf k).curRow + (Terminal.fed (c.text k)).top = (Terminal.fed (c.text k)).row ∧
      (q.surf k).curRow < rows ∧
      (q.surf k).viewOff = c.off k ∧ (q.surf k).viewOff ≤ (q.surf k).histCount) ∧
    q.active = c.active ∧ q.active < nsurfaces ∧ screen q = (q.surf q.active).view ∧
    ∀ call k, touched q call ≠ some k → (step q call).surf k = q.surf k := by
  have h := (inv_attach p).run calls
  refine ⟨fun k hk => ?_, h.active, h.shown.active, ?_, fun call k hk => step_surf_of_ne _ call hk⟩
  · obtain ⟨_, -, -, hk'⟩ := h.shows k hk
    exact ⟨hk'.kept, hk'.col, hk'.col ▸ hk'.col_lt, hk'.row, hk'.row_lt, h.off k hk, h.off_le k hk⟩
  · rw [view_eq_window (h.off_le _ h.shown.active), screen]
    exact List.map_congr_left fun r hr => h.shown.fb r (List.mem_range.mp hr)

example :
    let t := Terminal.fed [0x48, 0xE2, 0x80, 0x94, 0x0A, 0x09, 0x21]
    [0, 1, 2].map (t.line 0) = [vgaCell 0x48, vgaCell 0x2D, blankCell] ∧
      [7, 8].map (t.line 1) = [blankCell, vgaCell 0x21] := by
  decide +kernel

-- An H, a dash of three bytes, a sequence that breaks off, a stray byte and a tabulator.
example : glyphs 0 [0x48, 0xE2, 0x80, 0x94, 0xC3, 0x41, 0xFF, 0x09] =
    [0x48, 0x2D, 0x41, 0x3F, 0x09] := by
  decide

end Uros.Gpu.Vga
