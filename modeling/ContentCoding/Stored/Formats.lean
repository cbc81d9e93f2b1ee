import ContentCoding.Coding
import ContentCoding.Stored.Layout

/-!
# The stored form of each coding

* `deflate`: blocks headed by their size and its complement.
* `gzip`: the same between a header of ten octets and a checksum.
* `zstd`: raw blocks of a frame without a content size.
* `brotli`: uncompressed meta-blocks, after one that is empty and only completes the first
  octet.
-/

namespace ContentCoding.Stored

/-- **Blocks of deflate.** An octet that says whether the block is the last one, the size, and
the complement of the size. -/
def Deflate.header (n : Nat) (last : Bool) : Octets :=
  (if last then 1 else 0) :: (Word.write 2 n ++ Word.write 2 (65535 - n))

def Deflate.scan (bytes : Octets) : Scan :=
  if bytes.length < 5 then .short
  else
    let n := Word.read ((bytes.drop 1).take 2)
    if bytes.headD 0 ≤ 1 ∧ n + Word.read ((bytes.drop 3).take 2) = 65535 then
      .found n (bytes.headD 0 == 1) (bytes.drop 5)
    else .bad

theorem Deflate.scan_header {n : Nat} (h : n ≤ 65535) (last : Bool) (rest : Octets) :
    scan (header n last ++ rest) = .found n last rest := by
  have hn : Word.read (Word.write 2 n) = n := Word.read_write (show n < 65536 by omega)
  have hm : Word.read (Word.write 2 (65535 - n)) = 65535 - n :=
    Word.read_write (show _ < 65536 by omega)
  have h2 : (Word.write 2 n).length = 2 := Word.length_write 2 n
  have h3 : (Word.write 2 (65535 - n)).length = 2 := Word.length_write 2 (65535 - n)
  have hd : ((header n last ++ rest).drop 1).take 2 = Word.write 2 n := by
    simp [header, h2]
  have he : ((header n last ++ rest).drop 3).take 2 = Word.write 2 (65535 - n) := by
    simp [header, h2, h3]
  have hr : (header n last ++ rest).drop 5 = rest := by
    simp [header, List.drop_append, h2, h3]
  have hl : ¬ (header n last ++ rest).length < 5 := by
    simp [header]
    omega
  have h0 : (header n last ++ rest).headD 0 = if last then 1 else 0 := rfl
  simp only [scan, hl, ↓reduceIte, hd, he, hr, hn, hm, h0]
  cases last <;> simp <;> omega

theorem Deflate.short_of_part {n : Nat} {last : Bool} {p : Octets} (h : p <+: header n last)
    (hn : p ≠ header n last) : scan p = .short := by
  have := length_lt_of_part h hn
  simp only [header, List.length_cons, List.length_append, Word.length_write] at this
  simp only [scan]
  exact if_pos (by omega)

/-- **Blocks of zstd.** Three octets: whether the block is the last one, two bits that are zero
for a raw block, and the size. -/
def Zstd.header (n : Nat) (last : Bool) : Octets := Word.write 3 (8 * n + if last then 1 else 0)

def Zstd.scan (bytes : Octets) : Scan :=
  if bytes.length < 3 then .short
  else
    let w := Word.read (bytes.take 3)
    if w / 2 % 4 = 0 then .found (w / 8) (w % 2 == 1) (bytes.drop 3) else .bad

theorem Zstd.scan_header {n : Nat} (h : n ≤ 131072) (last : Bool) (rest : Octets) :
    scan (header n last ++ rest) = .found n last rest := by
  have hw : Word.read (header n last) = 8 * n + if last then 1 else 0 :=
    Word.read_write (show _ < 16777216 by cases last <;> simp <;> omega)
  have h3 : (header n last).length = 3 := Word.length_write 3 _
  have ht : (header n last ++ rest).take 3 = header n last := by simp [h3]
  have hr : (header n last ++ rest).drop 3 = rest := by simp [h3]
  have hl : ¬ (header n last ++ rest).length < 3 := by
    rw [List.length_append, h3]
    omega
  simp only [scan, hl, ↓reduceIte, ht, hr, hw]
  cases last <;> simp only [Bool.false_eq_true, ↓reduceIte]
  · rw [if_pos (by omega), show (8 * n + 0) / 8 = n by omega, show (8 * n + 0) % 2 = 0 by omega]
    rfl
  · rw [if_pos (by omega), show (8 * n + 1) / 8 = n by omega, show (8 * n + 1) % 2 = 1 by omega]
    rfl

theorem Zstd.short_of_part {n : Nat} {last : Bool} {p : Octets} (h : p <+: header n last)
    (hn : p ≠ header n last) : scan p = .short := by
  have := length_lt_of_part h hn
  simp only [header, Word.length_write] at this
  simp [scan, this]

/-- **Blocks of brotli.** Three octets: a zero bit for a meta-block that others follow, two for
the width of the size, the size less one, and a bit that says that the block is not
compressed. -/
def Brotli.header (n : Nat) : Octets := Word.write 3 (524288 + 8 * (n - 1))

/-- The last meta-block: two bits, that it is the last one and that it is empty. -/
def Brotli.ending : Octets := [3]

def Brotli.scan (bytes : Octets) : Scan :=
  match bytes with
  | 3 :: rest => .found 0 true rest
  | _ =>
    if bytes.length < 3 then .short
    else
      let w := Word.read (bytes.take 3)
      if w % 8 = 0 ∧ w / 524288 = 1 then .found (w / 8 % 65536 + 1) false (bytes.drop 3) else .bad

theorem Brotli.header_cons (n : Nat) :
    ∃ b bs, header n = b :: bs ∧ b ≠ 3 ∧ bs.length = 2 := by
  refine ⟨_, _, rfl, ?_, Word.length_write 2 _⟩
  intro h
  have := congrArg UInt8.toNat h
  simp only [UInt8.toNat_ofNat'] at this
  rw [show (3 : UInt8).toNat = 3 from rfl] at this
  omega

theorem Brotli.scan_header {n : Nat} (h0 : 0 < n) (h : n ≤ 65536) (rest : Octets) :
    scan (header n ++ rest) = .found n false rest := by
  have hw : Word.read (header n) = 524288 + 8 * (n - 1) :=
    Word.read_write (show _ < 16777216 by omega)
  have h3 : (header n).length = 3 := Word.length_write 3 _
  have ht : (header n ++ rest).take 3 = header n := by simp [h3]
  have hr : (header n ++ rest).drop 3 = rest := by simp [h3]
  have hl : ¬ (header n ++ rest).length < 3 := by
    rw [List.length_append, h3]
    omega
  obtain ⟨b, bs, hb, hne, -⟩ := header_cons n
  rw [scan]
  · simp only [hl, ↓reduceIte, ht, hr, hw]
    rw [if_pos (by omega)]
    congr 1
    omega
  · intro r hc
    rw [hb] at hc
    exact hne (List.cons.inj hc).1

theorem Brotli.short_of_part {n : Nat} {p : Octets} (h : p <+: header n) (hn : p ≠ header n) :
    scan p = .short := by
  have hl := length_lt_of_part h hn
  simp only [header, Word.length_write] at hl
  obtain ⟨b, bs, hb, hne, -⟩ := header_cons n
  rw [scan]
  · exact if_pos hl
  · rintro r rfl
    rw [hb] at h
    exact hne (List.cons_prefix_cons.1 h).1.symm

/-- Raw deflate. -/
def deflate : Layout where
  preamble := []
  opening := .withBlock
  emptyInput := .refused
  maxBlock := 65535
  block n := Deflate.header n false
  ending := Deflate.header 0 true
  trailer _ := []
  scan := Deflate.scan
  scan_block _ h rest := Deflate.scan_header h false rest
  scan_ending rest := Deflate.scan_header (by decide) true rest
  short_block _ _ h hn := Deflate.short_of_part h hn
  short_ending h hn := Deflate.short_of_part h hn

/-- Deflate in a gzip member: no name, no time, no known system. -/
def gzip : Layout where
  preamble := [0x1F, 0x8B, 8, 0, 0, 0, 0, 0, 0, 0xFF]
  opening := .withInput
  emptyInput := .takenFirst
  maxBlock := 65535
  block n := Deflate.header n false
  ending := Deflate.header 0 true
  trailer c := Word.write 4 c.value.toNat ++ Word.write 4 c.size
  scan := Deflate.scan
  scan_block _ h rest := Deflate.scan_header h false rest
  scan_ending rest := Deflate.scan_header (by decide) true rest
  short_block _ _ h hn := Deflate.short_of_part h hn
  short_ending h hn := Deflate.short_of_part h hn

/-- A zstd frame: the magic number, no optional fields, and a window of two megabytes. -/
def zstd : Layout where
  preamble := [0x28, 0xB5, 0x2F, 0xFD, 0, 0x58]
  opening := .withBlock
  emptyInput := .taken
  maxBlock := 131072
  block n := Zstd.header n false
  ending := Zstd.header 0 true
  trailer _ := []
  scan := Zstd.scan
  scan_block _ h rest := Zstd.scan_header h false rest
  scan_ending rest := Zstd.scan_header (by decide) true rest
  short_block _ _ h hn := Zstd.short_of_part h hn
  short_ending h hn := Zstd.short_of_part h hn

/-- A brotli stream: a window of sixty-four kilobytes, and an empty meta-block that fills the
first octet. -/
def brotli : Layout where
  preamble := [0x0C]
  opening := .withFlush
  emptyInput := .taken
  maxBlock := 65536
  block := Brotli.header
  ending := Brotli.ending
  trailer _ := []
  scan := Brotli.scan
  scan_block := Brotli.scan_header
  scan_ending _ := rfl
  short_block _ _ h hn := Brotli.short_of_part h hn
  short_ending {p} h hn := by
    have hp : p = [] := List.eq_nil_of_length_eq_zero
      (Nat.lt_one_iff.1 (length_lt_of_part h hn))
    rw [hp]
    rfl

/-- **The stored form of a coding.** -/
def layout : Coding → Layout
  | .zstd => zstd
  | .brotli => brotli
  | .gzip => gzip
  | .deflate => deflate

end ContentCoding.Stored
