import LocOS.Prometheus
import Mathlib.Data.List.Forall2

/-!
# Generated

What the generator writes, as words: blocks `d[o + 2] := d[o] + d[o + 1]`, an
exit, and the data. The file spells these words out, one a line, behind the
two section headers.
-/

namespace LocOS

/-! ## A generated program -/

/-- The draws behind a file, as numbers: registers and data offsets of the
blocks, and the data. The image fits the 24-bit space. -/
structure GeneratedProgram where
  blocks : Nat
  dataSize : Nat
  reg : Nat → Nat
  offset : Nat → Nat
  datum : Nat → Word
  four_le : 4 ≤ dataSize
  reg_lt : ∀ b, reg b < 16
  offset_lt : ∀ b, offset b < dataSize
  fits : 4 * (4 * blocks + 1 + dataSize) ≤ 2 ^ 24

/-- LD. -/
def ldWord (reg address : Nat) : Word := BitVec.ofNat 32 (reg * 16 ^ 6 + address)

/-- ST. -/
def stWord (reg address : Nat) : Word := BitVec.ofNat 32 ((16 + reg) * 16 ^ 6 + address)

/-- ADD: `reg3` is the sum of `reg1` and `reg2`. -/
def addWord (reg3 reg1 reg2 : Nat) : Word :=
  BitVec.ofNat 32 ((((2 * 16 + reg3) * 16 + reg1) * 16 + reg2) * 16 ^ 4)

/-- EXIT. -/
def exitWord : Word := 0xF0000000#32

namespace GeneratedProgram

variable (g : GeneratedProgram)

/-- Words of code: four a block, and the exit. -/
def codeSize : Nat := 4 * g.blocks + 1

/-- The byte address of data word `o`, wrapping around. -/
def dataAddress (o : Nat) : Nat := 4 * (g.codeSize + o % g.dataSize)

/-- The four instructions of block `b`. -/
def blockWords (b : Nat) : List Word :=
  [ldWord (g.reg b) (g.dataAddress (g.offset b)),
    ldWord ((g.reg b + 1) % 16) (g.dataAddress (g.offset b + 1)),
    addWord ((g.reg b + 2) % 16) (g.reg b) ((g.reg b + 1) % 16),
    stWord ((g.reg b + 2) % 16) (g.dataAddress (g.offset b + 2))]

/-- The words of the code segment. -/
def code : List Word := (List.range g.blocks).flatMap g.blockWords ++ [exitWord]

/-- The words of the data segment. -/
def data : List Word := (List.range g.dataSize).map g.datum

@[simp] theorem length_blockWords (b : Nat) : (g.blockWords b).length = 4 := rfl

theorem length_code : g.code.length = g.codeSize := by
  simp [code, codeSize, List.length_flatMap, Nat.mul_comm]

theorem length_data : g.data.length = g.dataSize := by simp [data]

theorem dataAddress_lt (o : Nat) : g.dataAddress o < 2 ^ 24 := by
  have := Nat.mod_lt o (Nat.lt_of_lt_of_le (by decide) g.four_le)
  have := g.fits
  simp only [dataAddress, codeSize]
  omega

end GeneratedProgram

/-! ## The draws -/

theorem rand_toNat (draws : Draws) : (rand draws).1.toNat = (draws 0).val := by
  have h := (draws 0).isLt
  rw [rand, BitVec.toNat_ofNat]
  omega

theorem drawnSize_toNat (draws : Draws) (maxLines : Word) :
    (drawnSize (rand draws).1 maxLines).toNat = 4 + (draws 0).val % maxLines.toNat := by
  have h := (draws 0).isLt
  have hle := Nat.mod_le (draws 0).val maxLines.toNat
  rw [drawnSize, BitVec.toNat_add, BitVec.toNat_umod, rand_toNat]
  show (4 + _) % 2 ^ 32 = _
  omega

/-- The drawn `code_size` and `data_size`. -/
def drawnCodeSize (maxLines : Word) (draws : Draws) : Word := drawnSize (rand draws).1 maxLines

def drawnDataSize (maxLines : Word) (draws : Draws) : Word :=
  drawnSize (rand (rand draws).2).1 maxLines

/-- The image fits the 24-bit virtual space. -/
def ImageFits (maxLines : Word) (draws : Draws) : Prop :=
  4 * (4 * ((drawnCodeSize maxLines draws).toNat / 4) + 1 +
    (drawnDataSize maxLines draws).toNat) ≤ 2 ^ 24

instance (maxLines : Word) (draws : Draws) : Decidable (ImageFits maxLines draws) := by
  unfold ImageFits
  infer_instance

theorem four_le_drawnDataSize (maxLines : Word) (draws : Draws) :
    4 ≤ (drawnDataSize maxLines draws).toNat := by
  rw [drawnDataSize, drawnSize_toNat]
  exact Nat.le_add_right _ _

/-- What the draws determine. -/
def GeneratedProgram.ofDraws (maxLines : Word) (draws : Draws) (hfits : ImageFits maxLines draws) :
    GeneratedProgram where
  blocks := (drawnCodeSize maxLines draws).toNat / 4
  dataSize := (drawnDataSize maxLines draws).toNat
  reg b := (draws (2 * b + 2)).val % 16
  offset b := (draws (2 * b + 3)).val % (drawnDataSize maxLines draws).toNat
  datum i := drawnDatum
    (BitVec.ofNat 32 (draws (2 * ((drawnCodeSize maxLines draws).toNat / 4) + i + 2)))
  four_le := four_le_drawnDataSize maxLines draws
  reg_lt := fun _ => Nat.mod_lt _ (by decide)
  offset_lt := fun _ =>
    Nat.mod_lt _ (Nat.lt_of_lt_of_le (by decide) (four_le_drawnDataSize maxLines draws))
  fits := hfits

/-! ## Lines that spell words -/

/-- The line is a row of at most eight digits that stands for the word. -/
def Spells (line : List Char) (w : Word) : Prop :=
  ∃ ds : List Nat, line = ds.map Text.hexDigit ∧ ds ≠ [] ∧ (∀ d ∈ ds, d < 16) ∧
    ds.length ≤ 8 ∧ Text.value 0 ds = w.toNat

theorem spells_printHex (w : Word) : Spells (Text.printHex 8 w.toNat) w :=
  ⟨_, rfl, Text.hexDigits_ne_nil _ _, Text.hexDigits_lt _ _,
    Nat.le_of_eq (Text.length_hexDigits (by decide) w.isLt), Text.value_hexDigits _ _⟩

/-- A row of digits and numbers printed in fixed widths. -/
theorem spells_fields {w : Word} (d : Nat) (hd : d < 16) (fields : List (Nat × Nat))
    (hfields : ∀ f ∈ fields, 0 < f.1 ∧ f.2 < 16 ^ f.1)
    (hwidth : (fields.map Prod.fst).sum = 7)
    (hvalue : fields.foldl (fun acc f => acc * 16 ^ f.1 + f.2) d = w.toNat) :
    Spells (Text.hexDigit d :: fields.flatMap fun f => Text.printHex f.1 f.2) w := by
  have hmap : ∀ fs : List (Nat × Nat), fs.flatMap (fun f => Text.printHex f.1 f.2) =
      (fs.flatMap fun f => Text.hexDigits f.1 f.2).map Text.hexDigit := by
    intro fs
    induction fs with
    | nil => rfl
    | cons f fs ih => rw [List.flatMap_cons, List.flatMap_cons, List.map_append, ih]; rfl
  have hlen : ∀ fs : List (Nat × Nat), (∀ f ∈ fs, 0 < f.1 ∧ f.2 < 16 ^ f.1) →
      (fs.flatMap fun f => Text.hexDigits f.1 f.2).length = (fs.map Prod.fst).sum := by
    intro fs hfs
    induction fs with
    | nil => rfl
    | cons f fs ih =>
        obtain ⟨h1, h2⟩ := hfs f (by simp)
        rw [List.flatMap_cons, List.length_append, Text.length_hexDigits h1 h2,
          ih fun e he => hfs e (List.mem_cons_of_mem f he), List.map_cons, List.sum_cons]
  have hval : ∀ (fs : List (Nat × Nat)) (acc : Nat), (∀ f ∈ fs, 0 < f.1 ∧ f.2 < 16 ^ f.1) →
      Text.value acc (fs.flatMap fun f => Text.hexDigits f.1 f.2) =
        fs.foldl (fun acc f => acc * 16 ^ f.1 + f.2) acc := by
    intro fs
    induction fs with
    | nil => intro acc _; rfl
    | cons f fs ih =>
        intro acc hfs
        obtain ⟨h1, h2⟩ := hfs f (by simp)
        rw [List.flatMap_cons, Text.value_append, Text.value_hexDigits_of_lt acc h1 h2,
          ih _ fun e he => hfs e (List.mem_cons_of_mem f he), List.foldl_cons]
  refine ⟨d :: fields.flatMap fun f => Text.hexDigits f.1 f.2, ?_, List.cons_ne_nil _ _, ?_,
    ?_, ?_⟩
  · rw [hmap, List.map_cons]
  · intro e he
    -- the digit in front, and those of the fields
    rcases List.mem_cons.mp he with rfl | he
    · exact hd
    · obtain ⟨f, _, he⟩ := List.mem_flatMap.mp he
      exact Text.hexDigits_lt _ _ e he
  · rw [List.length_cons, hlen fields hfields, hwidth]
  · rw [Text.value_cons, hval fields _ hfields, ← hvalue]
    simp

/-- A line that spells a word, with its line break. -/
def SpellsLine (line : List Char) (w : Word) : Prop := ∃ l, line = l ++ ['\n'] ∧ Spells l w

theorem spells_ldLine {reg address : Word} (hreg : reg.toNat < 16)
    (haddress : address.toNat < 2 ^ 24) :
    SpellsLine (ldLine reg address) (ldWord reg.toNat address.toNat) := by
  have h := spells_fields (w := ldWord reg.toNat address.toNat) 0 (by decide)
    [(1, reg.toNat), (6, address.toNat)] (by simp; omega) rfl (by simp [ldWord]; omega)
  refine ⟨_, ?_, h⟩
  simp [ldLine, Text.hexDigit]

theorem spells_stLine {reg address : Word} (hreg : reg.toNat < 16)
    (haddress : address.toNat < 2 ^ 24) :
    SpellsLine (stLine reg address) (stWord reg.toNat address.toNat) := by
  have h := spells_fields (w := stWord reg.toNat address.toNat) 1 (by decide)
    [(1, reg.toNat), (6, address.toNat)] (by simp; omega) rfl (by simp [stWord]; omega)
  refine ⟨_, ?_, h⟩
  simp [stLine, Text.hexDigit]

theorem spells_addLine {reg3 reg1 reg2 : Word} (h3 : reg3.toNat < 16) (h1 : reg1.toNat < 16)
    (h2 : reg2.toNat < 16) :
    SpellsLine (addLine reg3 reg1 reg2) (addWord reg3.toNat reg1.toNat reg2.toNat) := by
  have h := spells_fields (w := addWord reg3.toNat reg1.toNat reg2.toNat) 2 (by decide)
    [(1, reg3.toNat), (1, reg1.toNat), (1, reg2.toNat), (4, 0)] (by simp; omega) rfl
    (by simp [addWord]; omega)
  refine ⟨_, ?_, h⟩
  simp [addLine, Text.hexDigit, Text.printHex, Text.hexDigits]

theorem spells_exitLine : SpellsLine exitLine exitWord :=
  ⟨['F', '0', '0', '0', '0', '0', '0', '0'], rfl, [15, 0, 0, 0, 0, 0, 0, 0], rfl,
    List.cons_ne_nil _ _, by decide, by decide, by decide⟩

theorem spells_dataLine (datum : Word) : SpellsLine (dataLine datum) datum :=
  ⟨_, rfl, spells_printHex datum⟩

/-! ## What the generator writes -/

/-- From a state of the generator to a later one: `n` draws are taken, and the
lines written spell `ws`. -/
structure Writes (g g' : GeneratorState) (n : Nat) (ws : List Word) : Prop where
  draws : g'.draws = fun i => g.draws (n + i)
  file : ∃ ls, g'.file = g.file ++ Text.unlines ls ∧ List.Forall₂ Spells ls ws

theorem Writes.refl (g : GeneratorState) : Writes g g 0 [] where
  draws := funext fun i => by rw [Nat.zero_add]
  file := ⟨[], (List.append_nil _).symm, .nil⟩

theorem Writes.trans {g₁ g₂ g₃ : GeneratorState} {m n : Nat} {us vs : List Word}
    (h : Writes g₁ g₂ m us) (h' : Writes g₂ g₃ n vs) : Writes g₁ g₃ (m + n) (us ++ vs) where
  draws := by
    rw [h'.draws, h.draws]
    funext i
    rw [Nat.add_assoc]
  file := by
    obtain ⟨ls, hfile, hls⟩ := h.file
    obtain ⟨ls', hfile', hls'⟩ := h'.file
    refine ⟨ls ++ ls', ?_, List.rel_append hls hls'⟩
    rw [hfile', hfile, Text.unlines_append, List.append_assoc]

theorem Writes.put {g : GeneratorState} {line : List Char} {w : Word} (h : SpellsLine line w) :
    Writes g (g.put line) 0 [w] where
  draws := funext fun i => by rw [Nat.zero_add]; rfl
  file := by
    obtain ⟨l, rfl, hl⟩ := h
    exact ⟨[l], by simp [GeneratorState.put, Text.unlines], .cons hl .nil⟩

theorem Writes.rand (g : GeneratorState) :
    Writes g { g with draws := (rand g.draws).2 } 1 [] where
  draws := funext fun i => by rw [Nat.add_comm 1 i]; rfl
  file := ⟨[], (List.append_nil _).symm, .nil⟩

/-- A loop whose iterations write, `k` draws each. -/
theorem Writes.up {body : GeneratorState → GeneratorState} (g : GeneratorState) {k : Nat} (n : Nat)
    (ws : Nat → List Word)
    (hbody : ∀ i g', i < n → (g'.draws = fun j => g.draws (k * i + j)) →
      Writes g' (body g') k (ws i)) :
    Writes g (Loop.up (fun _ => body) n g) (k * n) ((List.range n).flatMap ws) := by
  refine Loop.up_inv (fun i g' => Writes g g' (k * i) ((List.range i).flatMap ws)) (.refl g) ?_
  intro i g' hi h
  rw [List.range_succ, List.flatMap_append, List.flatMap_singleton, Nat.mul_succ]
  exact h.trans (hbody i g' hi h.draws)

/-! ## One block -/

theorem toNat_shiftLeft_two {v : Word} (h : v.toNat < 2 ^ 30) : (v <<< 2).toNat = 4 * v.toNat := by
  rw [BitVec.toNat_shiftLeft, Nat.shiftLeft_eq, Nat.mod_eq_of_lt (by omega), Nat.mul_comm]

theorem toNat_shiftRight_two (v : Word) : (v >>> 2).toNat = v.toNat / 4 := by
  rw [BitVec.toNat_ushiftRight, Nat.shiftRight_eq_div_pow]

theorem nextOffset_toNat {dataSize varOffset : Word} {o : Nat} (hsize : dataSize.toNat < 2 ^ 30)
    (hpos : 0 < dataSize.toNat) (ho : o < dataSize.toNat) (hoff : varOffset.toNat = 4 * o) :
    (nextOffset dataSize varOffset).toNat = 4 * ((o + 1) % dataSize.toNat) := by
  have hlt := Nat.mod_lt (o + 1) hpos
  have hmod : (((varOffset >>> 2) + 1) % dataSize).toNat = (o + 1) % dataSize.toNat := by
    rw [BitVec.toNat_umod, BitVec.toNat_add, toNat_shiftRight_two, hoff,
      Nat.mul_div_cancel_left o (by decide), Nat.mod_eq_of_lt (show _ < 2 ^ 32 by
        show o + 1 < 2 ^ 32
        omega)]
    rfl
  rw [nextOffset, toNat_shiftLeft_two (by omega), hmod]

theorem regAfter_toNat {reg k : Word} (hreg : reg.toNat < 16) (hk : k.toNat < 16) :
    ((reg + k) % 16).toNat = (reg.toNat + k.toNat) % 16 := by
  have hsum : (reg + k).toNat = reg.toNat + k.toNat := by
    rw [BitVec.toNat_add]
    omega
  rw [BitVec.toNat_umod, hsum]
  rfl

section Block

variable (p : GeneratedProgram)

theorem GeneratedProgram.dataSize_le : 4 * p.dataSize ≤ 2 ^ 24 := by
  have := p.fits
  omega

theorem GeneratedProgram.dataSize_pos : 0 < p.dataSize :=
  Nat.lt_of_lt_of_le (by decide) p.four_le

theorem dataAddress_toNat {dataStart varOffset : Word} {o : Nat}
    (hstart : dataStart.toNat = 4 * p.codeSize) (hoff : varOffset.toNat = 4 * (o % p.dataSize)) :
    (dataStart + varOffset).toNat = p.dataAddress o := by
  have hlt := p.dataAddress_lt o
  simp only [GeneratedProgram.dataAddress] at hlt ⊢
  rw [BitVec.toNat_add, hstart, hoff]
  omega

theorem putBlock_writes {dataStart dataSize : Word} {g : GeneratorState} {b : Nat}
    (hstart : dataStart.toNat = 4 * p.codeSize) (hsize : dataSize.toNat = p.dataSize)
    (hreg : (g.draws 0).val % 16 = p.reg b) (hoff : (g.draws 1).val % p.dataSize = p.offset b) :
    Writes g (putBlock dataStart dataSize g) 2 (p.blockWords b) := by
  have hle := p.dataSize_le
  have hpos := p.dataSize_pos
  have hr : ((rand g.draws).1 % 16).toNat = p.reg b := by
    rw [BitVec.toNat_umod, rand_toNat]
    exact hreg
  have hr2 : (((rand g.draws).1 % 16 + 1) % 16).toNat = (p.reg b + 1) % 16 := by
    rw [regAfter_toNat (hr ▸ p.reg_lt b) (by decide), hr]
    rfl
  have hr3 : (((rand g.draws).1 % 16 + 2) % 16).toNat = (p.reg b + 2) % 16 := by
    rw [regAfter_toNat (hr ▸ p.reg_lt b) (by decide), hr]
    rfl
  have ho : (((rand (rand g.draws).2).1 % dataSize) <<< 2).toNat = 4 * p.offset b := by
    have hmod : ((rand (rand g.draws).2).1 % dataSize).toNat = p.offset b := by
      rw [BitVec.toNat_umod, rand_toNat, hsize]
      exact hoff
    have := p.offset_lt b
    rw [toNat_shiftLeft_two (by omega), hmod]
  -- the offsets in bytes of the three variables
  have ho2 := nextOffset_toNat (by omega) (by omega) (hsize ▸ p.offset_lt b) ho
  have ho3 := nextOffset_toNat (by omega) (by omega) (Nat.mod_lt _ (by omega)) ho2
  rw [hsize] at ho2 ho3
  rw [Nat.mod_add_mod] at ho3
  -- their addresses
  have ha := dataAddress_toNat p (o := p.offset b) hstart
    (by rw [ho, Nat.mod_eq_of_lt (p.offset_lt b)])
  have ha2 := dataAddress_toNat p hstart ho2
  have ha3 := dataAddress_toNat p hstart ho3
  have hlt16 : ∀ r, r % 16 < 16 := fun r => Nat.mod_lt r (by decide)
  have hld := spells_ldLine (hr ▸ p.reg_lt b) (ha ▸ p.dataAddress_lt _)
  have hld2 := spells_ldLine (hr2 ▸ hlt16 _) (ha2 ▸ p.dataAddress_lt _)
  have hadd := spells_addLine (hr3 ▸ hlt16 _) (hr ▸ p.reg_lt b) (hr2 ▸ hlt16 _)
  have hst := spells_stLine (hr3 ▸ hlt16 _) (ha3 ▸ p.dataAddress_lt _)
  rw [hr, ha] at hld
  rw [hr2, ha2] at hld2
  rw [hr3, hr, hr2] at hadd
  rw [hr3, ha3] at hst
  exact ((((((Writes.rand g).trans (.rand _)).trans (.put hld)).trans (.put hld2)).trans
    (.put hadd)).trans (.put hst))

theorem putDatum_writes {g : GeneratorState} {i : Nat}
    (hdatum : drawnDatum (BitVec.ofNat 32 (g.draws 0)) = p.datum i) :
    Writes g (putDatum g) 1 [p.datum i] :=
  (Writes.rand g).trans (.put (hdatum ▸ spells_dataLine _))

end Block

/-! ## The file -/

theorem dataStartOf_toNat (codeSize : Word) (h : 4 * (4 * (codeSize.toNat / 4) + 1) < 2 ^ 32) :
    (dataStartOf codeSize).toNat = 4 * (4 * (codeSize.toNat / 4) + 1) := by
  have hwords : ((codeSize >>> 2) <<< 2).toNat = 4 * (codeSize.toNat / 4) := by
    rw [toNat_shiftLeft_two (by rw [toNat_shiftRight_two]; omega), toNat_shiftRight_two]
  have hsum : (codeStart + ((codeSize >>> 2) <<< 2) + 1).toNat = 4 * (codeSize.toNat / 4) + 1 := by
    have hzero : codeStart = 0 := by decide
    rw [hzero, BitVec.toNat_add, BitVec.toNat_add, hwords]
    show ((0 + _) % 2 ^ 32 + 1) % 2 ^ 32 = _
    omega
  rw [dataStartOf, toNat_shiftLeft_two (by omega), hsum]

/-- The headers, without their line breaks. -/
def headers (dataStart : Nat) : List (List Char) :=
  [['.', 't', 'e', 'x', 't', ' '] ++ Text.printHex 6 0,
    ['.', 'd', 'a', 't', 'a', ' '] ++ Text.printHex 6 dataStart]

theorem unlines_headers {dataStart : Word} {n : Nat} (h : dataStart.toNat = n) :
    Text.unlines (headers n) = textLine codeStart ++ dataHeaderLine dataStart := by
  subst h
  simp [headers, textLine, dataHeaderLine, Text.unlines, codeStart]

/-- The file is the headers, and behind them a line for each word of code and
of data. -/
theorem generate_spells (maxLines : Word) (draws : Draws) (hfits : ImageFits maxLines draws) :
    ∃ ls,
      generate maxLines draws =
        Text.unlines (headers (4 * (GeneratedProgram.ofDraws maxLines draws hfits).codeSize)
          ++ ls) ∧
      List.Forall₂ Spells ls ((GeneratedProgram.ofDraws maxLines draws hfits).code ++
        (GeneratedProgram.ofDraws maxLines draws hfits).data) := by
  set p := GeneratedProgram.ofDraws maxLines draws hfits with hp
  have hsize : (drawnDataSize maxLines draws).toNat = p.dataSize := rfl
  have hblocks : (drawnCodeSize maxLines draws >>> 2).toNat = p.blocks := toNat_shiftRight_two _
  have hcode : 4 * (4 * ((drawnCodeSize maxLines draws).toNat / 4) + 1) = 4 * p.codeSize := rfl
  have hstart : (dataStartOf (drawnCodeSize maxLines draws)).toNat = 4 * p.codeSize := by
    have := p.fits
    have := dataStartOf_toNat (drawnCodeSize maxLines draws) (by
      rw [hcode]
      simp only [GeneratedProgram.codeSize]
      omega)
    rw [this, hcode]
  -- the generator before the first block
  set g : GeneratorState := ⟨fun i => draws (i + 2),
    textLine codeStart ++ dataHeaderLine (dataStartOf (drawnCodeSize maxLines draws))⟩ with hg
  have hgen : generate maxLines draws =
      (Loop.up (fun _ => putDatum) p.dataSize
        ((Loop.up (fun _ => putBlock (dataStartOf (drawnCodeSize maxLines draws))
          (drawnDataSize maxLines draws)) p.blocks g).put exitLine)).file := by
    rw [← hblocks, ← hsize]
    rfl
  have hblock := Writes.up g p.blocks p.blockWords fun b g' _ hdraws =>
    putBlock_writes p hstart hsize (by rw [hdraws]; rfl) (by rw [hdraws]; rfl)
  have hexit := hblock.trans (.put spells_exitLine)
  have hdatum := Writes.up _ p.dataSize (fun i => [p.datum i])
    fun i g' _ hdraws => putDatum_writes p (by
      rw [hdraws, hexit.draws, Nat.one_mul]
      rfl)
  obtain ⟨ls, hfile, hls⟩ := (hexit.trans hdatum).file
  refine ⟨ls, ?_, ?_⟩
  · rw [hgen, hfile, Text.unlines_append, unlines_headers hstart]
  · rw [GeneratedProgram.code, GeneratedProgram.data, List.map_eq_flatMap]
    exact hls

end LocOS
