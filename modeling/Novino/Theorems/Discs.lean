import Mathlib.Data.List.TakeWhile
import Mathlib.Tactic.IntervalCases
import Novino.Vfs.Iso9660

/-! Files, directory records and walks of directories of the ISO 9660 file system. -/

namespace Novino.Iso9660
open Ext2 (Name VInode Split split toInt32 ENOMEM)

section Files
variable (b : Block) (o : Nat)

theorem rdBytes_append (m n : Nat) : b.rdBytes o m ++ b.rdBytes (o + m) n = b.rdBytes o (m + n) := by
  simp only [Block.rdBytes, List.range_add, List.map_append, List.map_map, Nat.add_assoc]
  rfl

theorem take_rdBytes {k n : Nat} (h : k ≤ n) : (b.rdBytes o n).take k = b.rdBytes o k := by
  simp only [Block.rdBytes, ← List.map_take, List.take_range, Nat.min_eq_left h]

theorem drop_rdBytes {k n : Nat} (h : k ≤ n) : (b.rdBytes o n).drop k = b.rdBytes (o + k) (n - k) := by
  obtain ⟨m, rfl⟩ := Nat.exists_eq_add_of_le h
  rw [← rdBytes_append, Nat.add_sub_cancel_left]
  exact List.drop_left' (by simp)

theorem toInt32_eq_iff {size : Nat} (h : size < 2 ^ 32) : toInt32 size = size ↔ size < 2 ^ 31 := by
  unfold toInt32
  rw [Nat.mod_eq_of_lt h]
  split
  · exact iff_of_true rfl ‹_›
  · exact iff_of_false (by omega) ‹_›

theorem split_sum (bps seek size : Nat) :
    (split bps seek size).fsize + bps * (split bps seek size).whole + (split bps seek size).esize = size := by
  have hle : (split bps seek size).fsize ≤ size := by
    show (if seek % bps = 0 then 0 else min size (bps - seek % bps)) ≤ size
    split
    · exact Nat.zero_le _
    · exact Nat.min_le_left _ _
  have hdiv : bps * (split bps seek size).whole + (split bps seek size).esize = size - (split bps seek size).fsize :=
    Nat.div_add_mod _ _
  omega

theorem split_fsize_le (bps seek size : Nat) : (split bps seek size).fsize ≤ bps - seek % bps := by
  show (if seek % bps = 0 then 0 else min size (bps - seek % bps)) ≤ _
  split
  · exact Nat.zero_le _
  · exact Nat.min_le_right _ _

theorem split_aligned {bps seek size : Nat} (hbps : 0 < bps) (h : (split bps seek size).fsize ≠ size) :
    bps * (seek / bps + if (split bps seek size).fsize = 0 then 0 else 1) = seek + (split bps seek size).fsize := by
  have hseek := Nat.div_add_mod seek bps
  have hmod := Nat.mod_lt seek hbps
  have hf : (split bps seek size).fsize = if seek % bps = 0 then 0 else min size (bps - seek % bps) := rfl
  by_cases hr : seek % bps = 0
  · rw [if_pos hr] at hf
    rw [hf, if_pos rfl, Nat.add_zero]
    omega
  · rw [if_neg hr] at hf
    have hmin : (split bps seek size).fsize = bps - seek % bps := by omega
    rw [Nat.mul_add]
    split
    · omega
    · omega

variable {b} in
theorem readParts_eq {dev : Nat → Nat → Except Int (List Byte)} {bps ino seek size base last : Nat} (hbps : 0 < bps)
    (hdev : ∀ o c, o + c ≤ last → dev (o + ino) c = .ok (b.rdBytes (base + bps * o) (bps * c)))
    (hlast : seek + size ≤ bps * last) :
    readParts dev ino (split bps seek size) = .ok (b.rdBytes (base + seek) size) := by
  have hsum := split_sum bps seek size
  have hle := split_fsize_le bps seek size
  have halign := @split_aligned bps seek size hbps
  have hseek := Nat.div_add_mod seek bps
  have hmod := Nat.mod_lt seek hbps
  have hoff : (split bps seek size).offset = seek / bps := rfl
  have hstart : (split bps seek size).fstart = seek % bps := rfl
  have hesize : (split bps seek size).esize < bps := Nat.mod_lt _ hbps
  generalize split bps seek size = p at *
  generalize hn : (if p.fsize = 0 then 0 else 1) = n at halign
  have hoffset : (if p.fsize = 0 then p.offset + ino else p.offset + ino + 1) = seek / bps + n + ino := by
    rw [← hn, hoff]
    split <;> omega
  -- a sector lies in the extent when its first byte does
  have inside (o c : Nat) (h : bps * o + bps * c < seek + size + bps) : o + c ≤ last := by
    have : bps * (o + c) < bps * (last + 1) := by
      rw [Nat.mul_add, Nat.mul_add]
      omega
    exact Nat.le_of_lt_succ (Nat.lt_of_mul_lt_mul_left this)
  have hfirst : readSector dev (p.offset + ino) p.fstart p.fsize = .ok (b.rdBytes (base + seek) p.fsize) := by
    unfold readSector
    split
    · rename_i hz
      rw [hz]
      rfl
    · rw [hoff, hdev (seek / bps) 1 (inside _ _ (by omega)), hstart]
      dsimp only [Except.map]
      rw [drop_rdBytes _ _ (by omega), take_rdBytes _ _ (by omega), Nat.add_assoc, hseek]
  have hwhole : readWhole dev (seek / bps + n + ino) p.whole =
      .ok (b.rdBytes (base + seek + p.fsize) (bps * p.whole)) := by
    unfold readWhole
    split
    · rename_i hz
      rw [hz]
      rfl
    · rename_i hz
      have hpos : 0 < bps * p.whole := Nat.mul_pos hbps (Nat.pos_of_ne_zero hz)
      have hal := halign (by omega)
      rw [hdev _ _ (inside _ _ (by omega)), hal, Nat.add_assoc]
  have hrest : readSector dev (seek / bps + n + ino + p.whole) 0 p.esize =
      .ok (b.rdBytes (base + seek + (p.fsize + bps * p.whole)) p.esize) := by
    unfold readSector
    split
    · rename_i hz
      rw [hz]
      rfl
    · have hal := halign (by omega)
      have hcomm : seek / bps + n + ino + p.whole = seek / bps + n + p.whole + ino := by omega
      rw [hcomm, hdev _ _ (inside _ _ (by rw [Nat.mul_add]; omega))]
      dsimp only [Except.map]
      rw [List.drop_zero, take_rdBytes _ _ (by omega), Nat.mul_add, hal]
      congr 2
      omega
  unfold readParts
  dsimp only
  rw [hfirst, hoffset, hwhole, hrest]
  show Except.ok _ = _
  rw [rdBytes_append, rdBytes_append, hsum]

end Files

structure Reads (bd : Storage.Blkdev) (driver : Nat → Nat → Except Int (List Byte)) (medium : Block)
    (bps : Nat) : Prop where
  small : bd.sectors < 2 ^ 64
  read : ∀ o c, o + c ≤ bd.sectors → driver o c = .ok (medium.rdBytes (bps * o) (bps * c))

section Reading
variable {bd : Storage.Blkdev} {driver : Nat → Nat → Except Int (List Byte)} {medium : Block}
  {bps ino fileSize seek size : Nat} {mem : Bool}

theorem blkdevRead_eq (h : Reads bd driver medium bps) {o c : Nat} (hin : o + ino + bd.offset + c ≤ bd.sectors) :
    blkdevRead bd driver (o + ino) c = .ok (medium.rdBytes (bps * (ino + bd.offset) + bps * o) (bps * c)) := by
  have hsmall := h.small
  have hrw : bd.blkdevRw (o + ino) c = some (o + ino + bd.offset, c) := by
    unfold Storage.Blkdev.blkdevRw
    dsimp only
    rw [Nat.mod_eq_of_lt (by omega), Nat.mod_eq_of_lt (by omega), if_neg (by omega), if_neg (by omega)]
  rw [blkdevRead, hrw]
  dsimp only
  rw [h.read _ _ hin, ← Nat.mul_add]
  congr 3
  omega

theorem readParts_extent (h : Reads bd driver medium bps) (hbps : 0 < bps)
    (hext : ino + bd.offset + (fileSize + bps - 1) / bps ≤ bd.sectors) (hrange : seek + size ≤ fileSize) :
    readParts (blkdevRead bd driver) ino (split bps seek size) =
      .ok (medium.rdBytes (bps * (ino + bd.offset) + seek) size) := by
  have hdev : ∀ o c, o + c ≤ (fileSize + bps - 1) / bps → blkdevRead bd driver (o + ino) c =
      .ok (medium.rdBytes (bps * (ino + bd.offset) + bps * o) (bps * c)) := fun o c hoc => blkdevRead_eq h (by omega)
  refine readParts_eq hbps hdev ?_
  have hdiv := Nat.div_add_mod (fileSize + bps - 1) bps
  have hmod := Nat.mod_lt (fileSize + bps - 1) hbps
  omega

/-- A range of a file is read as it is on the medium, when the buffer for one sector can be allocated. The size is
returned as an `int`. -/
theorem iso9660Read_iff (h : Reads bd driver medium bps) (hbps : 0 < bps)
    (hext : ino + bd.offset + (fileSize + bps - 1) / bps ≤ bd.sectors) (hfile : fileSize < 2 ^ 32)
    (hrange : seek + size ≤ fileSize) :
    iso9660Read bps (blkdevRead bd driver) mem ino seek size =
      ((size : Int), medium.rdBytes (bps * (ino + bd.offset) + seek) size) ↔ mem = true ∧ size < 2 ^ 31 := by
  unfold iso9660Read
  cases mem with
  | false =>
    refine iff_of_false (fun heq => ?_) fun h => (nomatch h.1)
    have hstatus := congrArg Prod.fst heq
    have hneg : -ENOMEM = (size : Int) := hstatus
    rw [ENOMEM] at hneg
    omega
  | true =>
    rw [if_neg (by decide), readParts_extent h hbps hext hrange]
    dsimp only
    rw [Prod.mk.injEq, toInt32_eq_iff (by omega)]
    exact ⟨fun h => ⟨rfl, h.1⟩, fun h => ⟨h.2, rfl⟩⟩

end Reading

def counting : Block := fun i => BitVec.ofNat 8 i

def countingDriver (bps o c : Nat) : Except Int (List Byte) := .ok (counting.rdBytes (bps * o) (bps * c))

theorem iso9660Read_across : iso9660Read 4 (blkdevRead { sectors := 8, offset := 1 } (countingDriver 4)) true 2 3 5 =
    (5, counting.rdBytes 15 5) := by
  have hreads : Reads { sectors := 8, offset := 1 } (countingDriver 4) counting 4 := ⟨by decide, fun _ _ _ => rfl⟩
  have hext : 2 + 1 + (10 + 4 - 1) / 4 ≤ 8 := by decide
  exact (iso9660Read_iff hreads (by decide) hext (by decide) (by decide)).mpr ⟨rfl, by decide⟩

/-- A file of 2 ^ 31 bytes is read, and the number of bytes that is returned is negative. -/
theorem iso9660Read_half :
    (iso9660Read 2048 (blkdevRead { sectors := 2 ^ 21 } (countingDriver 2048)) true 16 0 (2 ^ 31)).1 = -2147483648 := by
  have hreads : Reads { sectors := 2 ^ 21 } (countingDriver 2048) counting 2048 := ⟨by decide, fun _ _ _ => rfl⟩
  have hext : 16 + 0 + (2 ^ 31 + 2048 - 1) / 2048 ≤ 2 ^ 21 := by decide
  rw [iso9660Read, if_neg (by decide), readParts_extent hreads (by decide) hext (by decide)]
  decide

def ident (record : Block) : List Byte := record.rdBytes Record.filename (record.rd8 Record.filenameLength)

def stem (id : List Byte) : List Byte := id.takeWhile (· != semicolon)

def text (l : List Byte) : Name := l.takeWhile (· != 0)

/-- The name that an identifier stands for: what is before the semicolon without a final dot. -/
def plainName (id : List Byte) : Name := text (if (stem id).getLast? = some dot then (stem id).dropLast else stem id)

def hasName (record : Block) (susp : Nat) : Bool :=
  if susp < record.rd8 0 - 1 then
    let length := record.rd8 (susp + 2)
    if record.rd16 susp = NM ∧ 5 ≤ length then true
    else if length = 0 then false
    else hasName record (susp + length)
  else false
termination_by record.rd8 0 - susp

structure Named (record : Block) (joliet : Bool) : Prop where
  alone : ∀ old old', cstr (dirent record old joliet).1 = cstr (dirent record old' joliet).1
  plain : joliet = false → hasName record (suspStart record) = false → ∀ old,
    cstr (dirent record old joliet).1 = plainName (ident record)

section Names
variable {record filename filename' : Block} (susp : Nat)

theorem text_append {l m : List Byte} (h : 0 ∈ l) : text (l ++ m) = text l := by
  induction l with
  | nil => cases h
  | cons b l ih =>
    by_cases hb : b = 0
    · subst hb
      simp [text]
    · have hl : 0 ∈ l := (List.mem_cons.mp h).resolve_left fun h => hb h.symm
      have hne : (b != 0) = true := bne_iff_ne.mpr hb
      simp only [text, List.cons_append, List.takeWhile_cons, hne]
      exact congrArg (b :: ·) (ih hl)

theorem text_eq {l : List Byte} (h : 0 ∉ l) (m : List Byte) : text (l ++ m) = l ++ text m :=
  List.takeWhile_append_of_pos fun _ hb => bne_iff_ne.mpr fun hz => h (hz ▸ hb)

theorem cstr_of_zero {n : Nat} (h : filename n = 0) (hn : n < 256) : cstr filename = text (filename.rdBytes 0 n) := by
  obtain ⟨m, hm⟩ := Nat.exists_eq_add_of_lt hn
  have hsplit : filename.rdBytes 0 256 = filename.rdBytes 0 n ++ [0] ++ filename.rdBytes (n + 1) m := by
    rw [hm, Nat.add_assoc, Nat.add_comm m, ← Nat.add_assoc, ← rdBytes_append, ← rdBytes_append, Nat.zero_add,
      Nat.zero_add]
    simp [Block.rdBytes, h]
  rw [cstr, hsplit]
  show text _ = _
  rw [text_append (by simp)]
  by_cases hz : 0 ∈ filename.rdBytes 0 n
  · exact text_append hz
  · rw [text_eq hz]
    have hself := text_eq hz []
    rw [List.append_nil] at hself
    rw [hself]
    rfl

theorem cstr_congr {n : Nat} (h : ∀ i ≤ n, filename i = filename' i) (hz : filename n = 0) (hn : n < 256) :
    cstr filename = cstr filename' := by
  rw [cstr_of_zero hz hn, cstr_of_zero ((h n (Nat.le_refl n)).symm.trans hz) hn]
  congr 1
  refine List.map_congr_left fun i hi => ?_
  rw [Nat.zero_add]
  exact h i (Nat.le_of_lt (List.mem_range.mp hi))

/-! Extensions. -/

theorem cstr_nm (h : 5 ≤ record.rd8 (susp + 2)) (filename filename' : Block) :
    cstr (nm record susp filename) = cstr (nm record susp filename') := by
  have hlt : record.rd8 (susp + 2) < 256 := (record (susp + 2)).isLt
  unfold nm
  dsimp only
  rw [if_neg (by omega), if_neg (by omega)]
  refine cstr_congr (n := record.rd8 (susp + 2) - 5) (fun i hi => ?_) ?_ (by omega)
  · by_cases hlt : i < record.rd8 (susp + 2) - 5
    · rw [if_pos hlt, if_pos hlt]
    · rw [if_neg hlt, if_neg hlt, if_pos (by omega), if_pos (by omega)]
  · rw [if_neg (Nat.lt_irrefl _), if_pos rfl]

theorem suspLoop_same (inode inode' : VInode) (h : cstr filename = cstr filename') :
    cstr (suspLoop record susp filename inode).1 = cstr (suspLoop record susp filename' inode').1 := by
  induction hm : record.rd8 0 - susp using Nat.strongRecOn generalizing susp filename filename' inode inode' with
  | ind m ih =>
    have hstep : cstr (if record.rd16 susp = NM then nm record susp filename else filename) =
        cstr (if record.rd16 susp = NM then nm record susp filename' else filename') := by
      split
      · by_cases hl : 5 ≤ record.rd8 (susp + 2)
        · exact cstr_nm susp hl filename filename'
        · unfold nm
          dsimp only
          rwa [if_pos (by omega), if_pos (by omega)]
      · exact h
    rw [suspLoop, suspLoop]
    split
    · dsimp only
      split
      · exact hstep
      · exact ih _ (by omega) _ _ _ hstep rfl
    · exact h

theorem suspLoop_named (inode : VInode) (h : hasName record susp = true) (filename filename' : Block) :
    cstr (suspLoop record susp filename inode).1 = cstr (suspLoop record susp filename' inode).1 := by
  induction hm : record.rd8 0 - susp using Nat.strongRecOn generalizing susp filename filename' inode with
  | ind m ih =>
    rw [hasName] at h
    rw [suspLoop, suspLoop]
    split
    · rename_i hlt
      rw [if_pos hlt] at h
      dsimp only at h ⊢
      by_cases hnm : record.rd16 susp = NM ∧ 5 ≤ record.rd8 (susp + 2)
      · rw [if_pos hnm.1, if_pos hnm.1]
        split
        · exact cstr_nm susp hnm.2 _ _
        · exact suspLoop_same _ _ _ (cstr_nm susp hnm.2 _ _)
      · rw [if_neg hnm] at h
        by_cases hz : record.rd8 (susp + 2) = 0
        · rw [if_pos hz] at h
          cases h
        · rw [if_neg hz] at h
          rw [if_neg hz, if_neg hz]
          exact ih _ (by omega) _ _ h _ _ rfl
    · rename_i hlt
      rw [if_neg hlt] at h
      cases h

theorem suspLoop_unnamed (inode : VInode) (h : hasName record susp = false) (filename : Block) :
    (suspLoop record susp filename inode).1 = filename := by
  induction hm : record.rd8 0 - susp using Nat.strongRecOn generalizing susp inode with
  | ind m ih =>
    rw [hasName] at h
    rw [suspLoop]
    split
    · rename_i hlt
      rw [if_pos hlt] at h
      dsimp only at h ⊢
      by_cases hnm : record.rd16 susp = NM ∧ 5 ≤ record.rd8 (susp + 2)
      · rw [if_pos hnm] at h
        cases h
      · rw [if_neg hnm] at h
        have hkeep : (if record.rd16 susp = NM then nm record susp filename else filename) = filename := by
          split
          · exact if_pos (by omega)
          · rfl
        rw [hkeep]
        by_cases hz : record.rd8 (susp + 2) = 0
        · rw [if_pos hz]
        · rw [if_neg hz] at h ⊢
          exact ih _ (by omega) _ _ h rfl
    · rfl

/-! Identifiers. -/

theorem wrBytes_cons (b : Block) (o : Nat) (x : Byte) (l : List Byte) :
    (b.wr8 o x.toNat).wrBytes (o + 1) l = b.wrBytes o (x :: l) := by
  funext i
  simp only [Block.wrBytes, Block.wr8, List.length_cons]
  by_cases hi : i = o
  · subst hi
    rw [if_neg (by omega), if_pos rfl, if_pos (by omega)]
    simp
  · by_cases hin : o + 1 ≤ i ∧ i < o + 1 + l.length
    · rw [if_pos hin, if_pos (by omega), show i - o = i - (o + 1) + 1 by omega, List.getD_cons_succ]
    · rw [if_neg hin, if_neg hi, if_neg (by omega)]

theorem rdBytes_wrBytes (b : Block) (o : Nat) (l : List Byte) : (b.wrBytes o l).rdBytes o l.length = l := by
  refine List.ext_getElem (by simp) fun i h₁ h₂ => ?_
  simp only [Block.rdBytes, Block.wrBytes, List.getElem_map, List.getElem_range]
  rw [if_pos (by omega), Nat.add_sub_cancel_left, List.getD_eq_getElem _ _ h₂]

/-- The loop over an identifier copies what is before the semicolon, and clears a dot in front of it. -/
theorem identLoop_eq (record : Block) (n i : Nat) (filename : Block) : identLoop record n i filename =
    let l := stem (record.rdBytes (Record.filename + i) n)
    let copied := filename.wrBytes i l
    if l.length < n ∧ record (Record.filename + (i + l.length) - 1) = dot ∧ i + l.length ≠ 0 then
      copied.wr8 (i + l.length - 1) 0
    else copied := by
  induction n generalizing i filename with
  | zero =>
    funext x
    simp [identLoop, stem, Block.rdBytes, Block.wrBytes]
  | succ n ih =>
    have hcons : record.rdBytes (Record.filename + i) (n + 1) =
        record (Record.filename + i) :: record.rdBytes (Record.filename + (i + 1)) n := by
      rw [Nat.add_comm n, ← rdBytes_append]
      rfl
    have hnil : filename.wrBytes i [] = filename := by
      funext x
      exact if_neg (by simp)
    rw [identLoop, hcons]
    by_cases hs : record (Record.filename + i) = semicolon
    · have hstem : stem (record (Record.filename + i) :: record.rdBytes (Record.filename + (i + 1)) n) = [] := by
        simp [stem, hs]
      rw [if_pos hs, hstem]
      dsimp only
      rw [hnil]
      simp
    · have hstem : stem (record (Record.filename + i) :: record.rdBytes (Record.filename + (i + 1)) n) =
          record (Record.filename + i) :: stem (record.rdBytes (Record.filename + (i + 1)) n) := by
        simp [stem, hs]
      rw [if_neg hs, hstem, ih]
      dsimp only
      rw [Block.rd8, wrBytes_cons, List.length_cons]
      have hlen : ∀ k, i + 1 + k = i + (k + 1) := fun k => by omega
      simp only [hlen, Nat.add_lt_add_iff_right]

variable (record) in
theorem getElem_ident {k : Nat} (h : k < (stem (ident record)).length) :
    (stem (ident record))[k] = record (Record.filename + k) := by
  have hp : stem (ident record) <+: ident record := List.takeWhile_prefix _
  rw [hp.getElem h]
  simp [ident, Block.rdBytes]

theorem length_stem (record : Block) :
    (stem (ident record)).length ≤ record.rd8 Record.filenameLength ∧
      (semicolon ∈ ident record ↔ (stem (ident record)).length < record.rd8 Record.filenameLength) := by
  have hlen : (ident record).length = record.rd8 Record.filenameLength := by simp [ident]
  have hp : stem (ident record) <+: ident record := List.takeWhile_prefix _
  rw [← hlen]
  refine ⟨hp.length_le, fun h => Nat.lt_of_le_of_ne hp.length_le fun heq => ?_, fun h => ?_⟩
  · have hmem : semicolon ∈ stem (ident record) := (hp.eq_of_length heq).symm ▸ h
    exact absurd (List.mem_takeWhile_imp hmem) (by decide)
  · by_contra hno
    have hall : stem (ident record) = ident record :=
      List.takeWhile_eq_self_iff.mpr fun b hb => bne_iff_ne.mpr fun heq => hno (heq ▸ hb)
    rw [hall] at h
    exact Nat.lt_irrefl _ h

theorem last_stem (record : Block) : (stem (ident record)).getLast? = some dot ↔
    record (Record.filename + (stem (ident record)).length - 1) = dot ∧ (stem (ident record)).length ≠ 0 := by
  by_cases hz : (stem (ident record)).length = 0
  · simp [List.length_eq_zero_iff.mp hz]
  · rw [List.getLast?_eq_getElem?, List.getElem?_eq_getElem (by omega), getElem_ident, Option.some.injEq,
      Nat.add_sub_assoc (by omega)]
    exact ⟨fun h => ⟨h, hz⟩, fun h => h.1⟩

theorem cstr_base (record old : Block) : cstr (baseName record old false) =
    if semicolon ∈ ident record then
      if (stem (ident record)).getLast? = some dot then text (stem (ident record)).dropLast
      else text (stem (ident record) ++ old.rdBytes (stem (ident record)).length
        (record.rd8 Record.filenameLength - (stem (ident record)).length))
    else text (ident record) := by
  obtain ⟨hle, hsemi⟩ := length_stem record
  have hlast := last_stem record
  have hS : record.rd8 Record.filenameLength < 256 := (record Record.filenameLength).isLt
  have hid : record.rdBytes (Record.filename + 0) (record.rd8 Record.filenameLength) = ident record := rfl
  rw [baseName, if_neg (by decide), identLoop_eq, hid]
  simp only [Nat.zero_add, ← hlast, ← hsemi]
  generalize hl : stem (ident record) = l at *
  generalize record.rd8 Record.filenameLength = S at *
  have hcopy : ((old.wr8 S 0).wrBytes 0 l).rdBytes 0 l.length = l := rdBytes_wrBytes _ 0 l
  have hend : ((old.wr8 S 0).wrBytes 0 l) S = 0 := by
    simp only [Block.wrBytes, Block.wr8]
    rw [if_neg (by omega)]
    rfl
  by_cases hmem : semicolon ∈ ident record
  · have hlt := hsemi.mp hmem
    rw [if_pos hmem]
    by_cases hdot : l.getLast? = some dot
    · have hne : l.length ≠ 0 := (hlast.mp hdot).2
      rw [if_pos hdot, if_pos ⟨hmem, hdot⟩, cstr_of_zero (n := l.length - 1) (by simp [Block.wr8]) (by omega),
        List.dropLast_eq_take]
      congr 1
      have htake := take_rdBytes ((old.wr8 S 0).wrBytes 0 l) 0 (Nat.sub_le l.length 1)
      rw [hcopy] at htake
      rw [htake]
      refine List.map_congr_left fun i hi => ?_
      have := List.mem_range.mp hi
      exact if_neg (by omega)
    · rw [if_neg hdot, if_neg fun h => hdot h.2, cstr_of_zero hend hS]
      congr 1
      obtain ⟨k, rfl⟩ := Nat.exists_eq_add_of_le hle
      rw [← rdBytes_append, hcopy, Nat.zero_add, Nat.add_sub_cancel_left]
      congr 1
      refine List.map_congr_left fun i hi => ?_
      have := List.mem_range.mp hi
      simp only [Block.wrBytes, Block.wr8]
      rw [if_neg (by omega), if_neg (by omega)]
  · have hself : l = ident record := by
      rw [← hl]
      exact List.takeWhile_eq_self_iff.mpr fun b hb => bne_iff_ne.mpr fun heq => hmem (heq ▸ hb)
    have hlen : l.length = S := Nat.le_antisymm hle (Nat.le_of_not_lt fun h => hmem (hsemi.mpr h))
    subst hlen
    rw [if_neg hmem, if_neg fun h => hmem h.1, cstr_of_zero hend hS, hcopy, hself]

theorem cstr_joliet (record old old' : Block) : cstr (baseName record old true) = cstr (baseName record old' true) := by
  have hlt : record.rd8 Record.filenameLength < 256 := (record Record.filenameLength).isLt
  unfold baseName
  rw [if_pos rfl, if_pos rfl]
  refine cstr_congr (n := record.rd8 Record.filenameLength / 2) (fun i hi => ?_) ?_ (by omega)
  · by_cases hin : i < record.rd8 Record.filenameLength / 2
    · rw [if_pos hin, if_pos hin]
    · rw [if_neg hin, if_neg hin, if_pos (by omega), if_pos (by omega)]
  · rw [if_neg (Nat.lt_irrefl _), if_pos rfl]

theorem text_dropLast {l : List Byte} (hdot : l.getLast? = some dot) : text l.dropLast = text l ↔ 0 ∈ l := by
  obtain ⟨init, rfl⟩ := List.getLast?_eq_some_iff.mp hdot
  rw [List.dropLast_concat]
  by_cases hz : 0 ∈ init
  · exact iff_of_true (text_append hz).symm (List.mem_append_left _ hz)
  · have hself := text_eq hz []
    rw [List.append_nil] at hself
    refine iff_of_false (fun h => ?_) fun h => ?_
    · rw [text_eq hz, hself] at h
      exact absurd (congrArg List.length h) (by simp [text, dot])
    · rcases List.mem_append.mp h with h | h
      · exact hz h
      · exact absurd h (by decide)

/-- The name is ended behind the whole identifier and not at the semicolon: what the buffer held before shows through
there, unless a dot or a NUL comes first. -/
theorem named_iff (record : Block) (joliet : Bool) : Named record joliet ↔
    joliet = true ∨ hasName record (suspStart record) = true ∨ 0 ∈ stem (ident record) ∨
      (semicolon ∈ ident record ↔ (stem (ident record)).getLast? = some dot) := by
  cases joliet with
  | true =>
    refine iff_of_true ⟨fun old old' => ?_, fun h => (nomatch h)⟩ (.inl rfl)
    exact suspLoop_same _ _ _ (cstr_joliet record old old')
  | false =>
    cases hn : hasName record (suspStart record) with
    | true =>
      exact iff_of_true ⟨fun old old' => suspLoop_named _ _ hn _ _, fun _ h => by simp [hn] at h⟩ (.inr (.inl rfl))
    | false =>
      have hname (old : Block) : cstr (dirent record old false).1 = cstr (baseName record old false) := by
        rw [dirent, suspLoop_unnamed _ _ hn]
      have hself : semicolon ∉ ident record → stem (ident record) = ident record := fun h =>
        List.takeWhile_eq_self_iff.mpr fun b hb => bne_iff_ne.mpr fun heq => h (heq ▸ hb)
      simp only [Bool.false_eq_true, false_or]
      constructor
      · rintro ⟨halone, hplain⟩
        by_contra hbad
        obtain ⟨hz, hdot⟩ := not_or.mp hbad
        by_cases hs : semicolon ∈ ident record
        · -- two buffers that differ behind the identifier
          have hlt := (length_stem record).2.mp hs
          have hlast : (stem (ident record)).getLast? ≠ some dot := fun h => hdot ⟨fun _ => h, fun _ => hs⟩
          have h := halone (fun _ => 1) (fun _ => 2)
          rw [hname, hname, cstr_base, cstr_base, if_pos hs, if_pos hs, if_neg hlast, if_neg hlast, text_eq hz,
            text_eq hz] at h
          obtain ⟨k, hk⟩ := Nat.exists_eq_add_of_lt hlt
          rw [hk, Nat.add_assoc, Nat.add_sub_cancel_left] at h
          have h := List.append_cancel_left h
          simp [Block.rdBytes, text, List.range_succ_eq_map] at h
        · have hlast : (stem (ident record)).getLast? = some dot := by
            by_contra h
            exact hdot ⟨fun h' => absurd h' hs, fun h' => absurd h' h⟩
          have h := hplain rfl hn fun _ => 0
          rw [hname, cstr_base, if_neg hs, plainName, if_pos hlast] at h
          exact hz ((text_dropLast hlast).mp (h.symm.trans (congrArg text (hself hs).symm)))
      · intro hok
        have hplain (old : Block) : cstr (dirent record old false).1 = plainName (ident record) := by
          rw [hname, cstr_base, plainName]
          by_cases hs : semicolon ∈ ident record
          · rw [if_pos hs]
            by_cases hlast : (stem (ident record)).getLast? = some dot
            · rw [if_pos hlast, if_pos hlast]
            · have hz := hok.resolve_right fun h => hlast (h.mp hs)
              rw [if_neg hlast, if_neg hlast, text_append hz]
          · rw [if_neg hs]
            by_cases hlast : (stem (ident record)).getLast? = some dot
            · have hz := hok.resolve_right fun h => hs (h.mpr hlast)
              rw [if_pos hlast, (text_dropLast hlast).mpr hz, hself hs]
            · rw [if_neg hlast, hself hs]
        exact ⟨fun old old' => (hplain old).trans (hplain old').symm, fun _ _ old => hplain old⟩

end Names

def versioned : Block := fun i =>
  match i with
  | 0 => 36 | 32 => 3 | 33 => 0x41 | 34 => 0x3B | 35 => 0x31 | _ => 0

/-- The name `A;1` is written without an end, and what the buffer held before shows behind it. -/
theorem stale_name_shows : cstr (dirent versioned (fun _ => 0) false).1 = [0x41] ∧
    cstr (dirent versioned (fun _ => 0x42) false).1 = [0x41, 0x42, 0x42] ∧ ¬Named versioned false := by
  have hz : cstr (dirent versioned (fun _ => 0) false).1 = [0x41] := by decide +kernel
  have hb : cstr (dirent versioned (fun _ => 0x42) false).1 = [0x41, 0x42, 0x42] := by decide +kernel
  refine ⟨hz, hb, fun h => ?_⟩
  have heq := h.alone (fun _ => 0) fun _ => 0x42
  rw [hz, hb] at heq
  exact absurd heq (by decide)

/-! ### Walks of directories -/

def starts : (o : Nat) → List Nat → List Nat
  | _, [] => []
  | o, l :: ls => o :: starts (o + l) ls

def Chain (dir : Block) : (o : Nat) → List Nat → Prop
  | _, [] => True
  | o, l :: ls => dir.rd8 o = l ∧ l ≠ 0 ∧ Chain dir (o + l) ls

/-- The directory has records of the lengths `lens i` in sector `i`, with a zero behind the last one when the sector is
not full. -/
structure WellFormed (dir : Block) (bps ns : Nat) (lens : Nat → List Nat) : Prop where
  chain : ∀ i < ns, Chain dir (bps * i) (lens i)
  fits : ∀ i < ns, (lens i).sum ≤ bps
  ended : ∀ i < ns, (lens i).sum < bps → dir.rd8 (bps * i + (lens i).sum) = 0

/-- The records of sector `i` other than those of the directory itself and of its parent. -/
def entries (dir : Block) (bps : Nat) (lens : Nat → List Nat) (i : Nat) : List Nat :=
  (starts (bps * i) (lens i)).filter fun o => !isDots (dir.drop o)

/-- After every sector that is full there is one without records to use. -/
def Spaced (dir : Block) (bps ns : Nat) (lens : Nat → List Nat) : Prop :=
  ∀ i < ns, (lens i).sum = bps → i + 1 < ns ∧ entries dir bps lens (i + 1) = []

section Walks
variable {σ : Type} {dir : Block} (bps : Nat) {ns : Nat} {lens : Nat → List Nat} (joliet : Bool)
  {visit : σ → Name → VInode → σ × Bool} {w : Walk σ} {cs o m : Nat} {em : List Nat}

structure At (w : Walk σ) (cs offset : Nat) (emitted : List Nat) : Prop where
  cs : w.cs = cs
  offset : w.offset = offset
  seek : w.seek = 0
  emitted : w.emitted = emitted
  outside : w.outside = false

theorem walk_outside (h : At w cs o em) (hcs : cs < ns) (ho : ns * bps ≤ o) :
    (walkLoop dir bps ns joliet visit w).outside = true := by
  rw [walkLoop, if_pos (h.cs ▸ hcs), if_pos (h.offset ▸ ho)]

theorem walk_zero (h : At w cs o em) (hcs : cs < ns) (ho : o < ns * bps) (hz : dir.rd8 o = 0) :
    ∃ w', At w' (cs + 1) (bps * (cs + 1)) em ∧
      walkLoop dir bps ns joliet visit w = walkLoop dir bps ns joliet visit w' := by
  refine ⟨{ w with cs := w.cs + 1, offset := bps * (w.cs + 1) }, ⟨?_, ?_, h.seek, h.emitted, h.outside⟩, ?_⟩
  · rw [h.cs]
  · rw [h.cs]
  · rw [walkLoop, if_pos (h.cs ▸ hcs), if_neg (by rw [h.offset]; omega)]
    dsimp only
    rw [h.offset, if_pos hz]

variable (hv : ∀ v name inode, (visit v name inode).2 = false)
include hv

theorem walk_record (h : At w cs o em) (hcs : cs < ns) (ho : o < ns * bps) (hl : dir.rd8 o ≠ 0) :
    ∃ w', At w' cs (o + dir.rd8 o) (em ++ [o].filter fun o => !isDots (dir.drop o)) ∧
      walkLoop dir bps ns joliet visit w = walkLoop dir bps ns joliet visit w' := by
  have hin : ¬ns * bps ≤ w.offset := by
    rw [h.offset]
    omega
  cases hd : isDots (dir.drop o) with
  | true =>
    refine ⟨{ w with offset := w.offset + dir.rd8 o }, ⟨h.cs, ?_, h.seek, ?_, h.outside⟩, ?_⟩
    · rw [h.offset]
    · simp [hd, h.emitted]
    · rw [walkLoop, if_pos (h.cs ▸ hcs), if_neg hin]
      dsimp only
      rw [h.offset, if_neg hl, if_pos hd]
  | false =>
    let made := dirent (dir.drop o) w.filename joliet
    let inode := { made.2 with blksz := bps, blocks := (made.2.size + bps - 1) / bps }
    refine ⟨{ w with
      offset := w.offset + dir.rd8 o, filename := made.1, value := (visit w.value (cstr made.1) inode).1
      emitted := w.emitted ++ [w.offset] }, ⟨h.cs, ?_, h.seek, ?_, h.outside⟩, ?_⟩
    · rw [h.offset]
    · simp [hd, h.emitted, h.offset]
    · rw [walkLoop, if_pos (h.cs ▸ hcs), if_neg hin]
      dsimp only
      rw [h.offset, if_neg hl, if_neg (by simp [hd]), if_neg (by simp [h.seek]), hv, if_neg (by decide)]

theorem walk_chain {ls : List Nat} (h : At w cs o em) (hcs : cs < ns) (hc : Chain dir o ls)
    (ho : o + ls.sum ≤ ns * bps) : ∃ w', At w' cs (o + ls.sum)
      (em ++ (starts o ls).filter fun o => !isDots (dir.drop o)) ∧
      walkLoop dir bps ns joliet visit w = walkLoop dir bps ns joliet visit w' := by
  induction ls generalizing w o em with
  | nil => exact ⟨w, by simpa [starts] using h, rfl⟩
  | cons l ls ih =>
    obtain ⟨rfl, hl, hc⟩ := hc
    rw [List.sum_cons] at ho ⊢
    obtain ⟨w₁, h₁, heq₁⟩ := walk_record bps joliet hv h hcs (by omega) hl
    obtain ⟨w₂, h₂, heq₂⟩ := ih h₁ hc (by omega)
    refine ⟨w₂, ?_, heq₁.trans heq₂⟩
    rw [starts, List.filter_cons, ← Nat.add_assoc]
    rw [List.append_assoc, ← List.filter_append, List.singleton_append, List.filter_cons] at h₂
    exact h₂

variable (hw : WellFormed dir bps ns lens)
include hw

/-- The walk from sector `m` on to the next zero, where what lies between is passed a second time when sector `m` was
full. -/
theorem walk_sectors (h : At w cs (bps * m) em) (hcs : cs < ns) (hm : m < ns) :
    ((walkLoop dir bps ns joliet visit w).outside = true ∧ ¬Spaced dir bps ns lens) ∨
    ∃ w' again, At w' (cs + 1) (bps * (cs + 1)) (em ++ entries dir bps lens m ++ again) ∧
      walkLoop dir bps ns joliet visit w = walkLoop dir bps ns joliet visit w' ∧
      ((lens m).sum = bps → m + 1 < ns ∧ (again = [] → entries dir bps lens (m + 1) = [])) ∧
      (Spaced dir bps ns lens → again = []) := by
  induction hn : ns - m generalizing w m em with
  | zero => omega
  | succ n ih =>
    have hfits := hw.fits m hm
    have hend : bps * m + bps ≤ ns * bps := by
      rw [Nat.mul_comm ns, ← Nat.mul_succ]
      exact Nat.mul_le_mul_left _ hm
    obtain ⟨w₁, h₁, heq₁⟩ := walk_chain bps joliet hv h hcs (hw.chain m hm) (by omega)
    by_cases hfull : (lens m).sum = bps
    · rw [hfull, ← Nat.mul_succ] at h₁
      by_cases hlast : m + 1 < ns
      · rcases ih h₁ hlast (by omega) with ⟨hout, hno⟩ | ⟨w₂, again, h₂, heq₂, -, hgood⟩
        · exact .inl ⟨heq₁ ▸ hout, hno⟩
        · refine .inr ⟨w₂, entries dir bps lens (m + 1) ++ again, ?_, heq₁.trans heq₂, fun _ => ⟨hlast, fun hnil => ?_⟩,
            fun hs => ?_⟩
          · rw [← List.append_assoc]
            exact h₂
          · exact (List.append_eq_nil_iff.mp hnil).1
          · rw [(hs m hm hfull).2, hgood hs, List.append_nil]
      · refine .inl ⟨?_, fun hs => hlast (hs m hm hfull).1⟩
        rw [heq₁]
        refine walk_outside bps joliet h₁ hcs ?_
        rw [Nat.mul_comm]
        exact Nat.mul_le_mul_left _ (by omega)
    · have hlt : (lens m).sum < bps := Nat.lt_of_le_of_ne hfits hfull
      obtain ⟨w₂, h₂, heq₂⟩ := walk_zero bps joliet h₁ hcs (by omega) (hw.ended m hm hlt)
      refine .inr ⟨w₂, [], ?_, heq₁.trans heq₂, fun h => absurd h hfull, fun _ => rfl⟩
      rw [List.append_nil]
      exact h₂

theorem walk_rest (h : At w cs (bps * cs) em) (hcs : cs ≤ ns) :
    ((walkLoop dir bps ns joliet visit w).outside = true ∧ ¬Spaced dir bps ns lens) ∨
    ((walkLoop dir bps ns joliet visit w).outside = false ∧
      ∃ used, (walkLoop dir bps ns joliet visit w).emitted = em ++ used ∧
      ((List.range' cs (ns - cs)).flatMap (entries dir bps lens)).length ≤ used.length ∧
      (used.length = ((List.range' cs (ns - cs)).flatMap (entries dir bps lens)).length →
        ∀ i, cs ≤ i → i < ns → (lens i).sum = bps → i + 1 < ns ∧ entries dir bps lens (i + 1) = []) ∧
      (Spaced dir bps ns lens → used = (List.range' cs (ns - cs)).flatMap (entries dir bps lens))) := by
  induction hn : ns - cs generalizing w cs em with
  | zero =>
    have hend : walkLoop dir bps ns joliet visit w = w := by
      rw [walkLoop, if_neg (by rw [h.cs]; omega)]
    rw [hend]
    refine .inr ⟨h.outside, [], by rw [h.emitted, List.append_nil], Nat.le_refl _, fun _ i hi hlt => ?_, fun _ => rfl⟩
    omega
  | succ n ih =>
    rcases walk_sectors bps joliet hv hw h (by omega) (by omega) with hbad | ⟨w', again, h', heq, hfull, hgood⟩
    · exact .inl hbad
    · rw [heq, List.range'_succ, List.flatMap_cons, List.length_append]
      rcases ih h' (by omega) (by omega) with hbad | ⟨hout, used, hem, hle, hsame, hsp⟩
      · exact .inl hbad
      · refine .inr ⟨hout, entries dir bps lens cs ++ again ++ used, ?_, ?_, fun hlen i hi hlt hsum => ?_, fun hs => ?_⟩
        · rw [hem]
          simp only [List.append_assoc]
        · simp only [List.length_append]
          omega
        · simp only [List.length_append] at hlen
          rcases Nat.eq_or_lt_of_le hi with rfl | hi
          · obtain ⟨hnext, hnil⟩ := hfull hsum
            exact ⟨hnext, hnil (List.length_eq_zero_iff.mp (by omega))⟩
          · exact hsame (by omega) i hi hlt hsum
        · rw [hgood hs, hsp hs, List.append_nil]

end Walks

/-- A walk counts a sector only at a zero, so after a full sector it passes the next one twice. -/
theorem walk_once_iff {σ : Type} {dir : Block} {bps ns : Nat} {lens : Nat → List Nat} {joliet : Bool}
    {visit : σ → Name → VInode → σ × Bool} (hv : ∀ v name inode, (visit v name inode).2 = false)
    (hw : WellFormed dir bps ns lens) (filename : Block) (value : σ) :
    ((walkLoop dir bps ns joliet visit { seek := 0, filename, value }).emitted =
        (List.range ns).flatMap (entries dir bps lens) ∧
      (walkLoop dir bps ns joliet visit { seek := 0, filename, value }).outside = false) ↔ Spaced dir bps ns lens := by
  have h : At ({ seek := 0, filename, value } : Walk σ) 0 (bps * 0) [] := ⟨rfl, rfl, rfl, rfl, rfl⟩
  have hrange : List.range' 0 (ns - 0) = List.range ns := by rw [Nat.sub_zero, List.range_eq_range']
  have hrest := walk_rest bps joliet hv hw h (Nat.zero_le ns)
  rw [hrange] at hrest
  rcases hrest with ⟨hout, hno⟩ | ⟨hout, used, hem, -, hsame, hsp⟩
  · exact iff_of_false (fun h => by rw [hout] at h; cases h.2) hno
  · rw [hem, List.nil_append]
    constructor
    · rintro ⟨heq, -⟩
      exact fun i hi hsum => hsame (by rw [heq]) i (Nat.zero_le i) hi hsum
    · exact fun hs => ⟨hsp hs, hout⟩

/-- A directory of two sectors of 2048 bytes with `n` records of 128 bytes in the first one and one of 34 bytes in the
second one. -/
def records (n : Nat) : Block := fun i => if i < 128 * n ∧ i % 128 = 0 then 128 else if i = 2048 then 34 else 0

def recordLens (n i : Nat) : List Nat := if i = 0 then List.replicate n 128 else [34]

def takeAll (v : Unit) (_ : Name) (_ : VInode) : Unit × Bool := (v, false)

theorem walk_once_short :
    let w := walkLoop (records 2) 2048 2 false takeAll { seek := 0, filename := Block.zero, value := () }
    w.emitted = [0, 128, 2048] ∧ w.outside = false := by
  have hw : WellFormed (records 2) 2048 2 (recordLens 2) := by
    refine ⟨fun i hi => ?_, fun i hi => ?_, fun i hi _ => ?_⟩
    · interval_cases i
      · exact ⟨by decide, by decide, by decide, by decide, trivial⟩
      · exact ⟨by decide, by decide, trivial⟩
    · interval_cases i <;> decide
    · interval_cases i <;> decide
  have hs : Spaced (records 2) 2048 2 (recordLens 2) := fun i hi h => by interval_cases i <;> cases h
  exact (walk_once_iff (fun _ _ _ => rfl) hw Block.zero ()).mpr hs

/-- The first sector is exactly full, and the record of the second one is met twice. -/
theorem walk_full_sector :
    (walkLoop (records 16) 2048 2 false takeAll { seek := 0, filename := Block.zero, value := () }).emitted =
        (List.range 17).map (128 * ·) ++ [2048] ∧
      (List.range 2).flatMap (entries (records 16) 2048 (recordLens 16)) = (List.range 17).map (128 * ·) := by
  decide +kernel

end Novino.Iso9660
