import Firefly.Boot.Relocation

/-!
# Firefly.Boot.Blanking

What `fd_boot_check_hash` hashes: the bytes of a range, with a sub-range taken as zeros. The sub-range is
looked for in each block of 64 bytes by itself, so that it is found where it lies in one block, and left as
it is where it goes across the end of one (`compares_iff`). The packager hashes with zeros in its place
wherever it is (`packageExecutable_blanked`), so that an executable with its hash across the end of a block
is not accepted (`packaged_accepted_iff`).
-/

namespace Firefly
namespace Boot

open Bytes Result

variable {ρ : Type} {read : ρ → Nat → Nat → Except Error (List UInt8 × ρ)} {r : ρ} {states : Nat → ρ}
  {storage range zero : Range} {data : List UInt8}

/-! ## What is to be hashed -/

/-- The fields are of type `uint32_t`. -/
structure Range.Fits (r : Range) : Prop where
  location : r.location < 2 ^ 32
  length : r.length < 2 ^ 32

def Range.Within (r s : Range) : Prop :=
  s.location ≤ r.location ∧ r.location + r.length ≤ s.location + s.length

/-- The reader does not fail on the blocks of the range, and gives the data. -/
structure Reads (read : ρ → Nat → Nat → Except Error (List UInt8 × ρ)) (range : Range) (states : Nat → ρ)
    (data : List UInt8) : Prop where
  length : data.length = range.length
  read : ∀ k, 64 * k < range.length →
    read (states k) (range.location + 64 * k) (min (range.length - 64 * k) 64) =
      .ok (field data (64 * k) 64, states (k + 1))

/-- The bytes of the range in order, with zeros in the place of the sub-range. -/
def blanked (range zero : Range) (data : List UInt8) : List UInt8 :=
  data.mapIdx fun i b =>
    if zero.location ≤ range.location + i ∧ range.location + i < zero.location + zero.length then 0 else b

/-- The check compares the expected hash with that of `bytes`, whatever the hash is. -/
def Compares (read : ρ → Nat → Nat → Except Error (List UInt8 × ρ)) (r : ρ) (storage range zero : Range)
    (bytes : List UInt8) : Prop :=
  ∀ u : Setup, (∀ data, (u.digest data).length = hashDataSize) →
    ∀ expected : List UInt8, expected.length = hashDataSize →
      ∃ x, checkHash u.hash read r storage range zero expected = .ok x ∧
        (x.1 = true ↔ u.digest bytes = expected)

/-- The sub-range lies in one block of the range, or its bytes are zeros. -/
def Blanks (range zero : Range) (data : List UInt8) : Prop :=
  (zero.location - range.location) % 64 + zero.length ≤ 64 ∨
    field data (zero.location - range.location) zero.length = List.replicate zero.length 0

instance : Decidable (Blanks range zero data) := inferInstanceAs (Decidable (_ ∨ _))

/-- A memory that is read without a failure. -/
def readImage (m : Nor.Image) (_ : Unit) (location length : Nat) : Except Error (List UInt8 × Unit) :=
  .ok (Nor.read m location length, ())

theorem reads_image (m : Nor.Image) (range : Range) :
    Reads (readImage m) range (fun _ => ()) (Nor.read m range.location range.length) := by
  refine ⟨Nor.length_read _ _ _, fun k hk => ?_⟩
  have hfield : field (Nor.read m range.location range.length) (64 * k) 64 =
      field (Nor.read m range.location range.length) (64 * k) (min (range.length - 64 * k) 64) := by
    rw [field, field, List.take_eq_take_iff, List.length_drop, Nor.length_read]
    omega
  rw [readImage, hfield, field_read m _ (by omega)]

/-! ## Zeros in the place of a field -/

theorem blanked_eq_clear {location offset length : Nat} (h : offset + length ≤ data.length) (total : Nat) :
    blanked ⟨location, total⟩ ⟨location + offset, length⟩ data = clear data offset length := by
  have hmin : min length (data.length - offset) = length := by omega
  refine List.ext_getElem ?_ fun i hi _ => ?_
  · simp [blanked, clear]
    omega
  · have htake : (data.take offset).length = offset := List.length_take_of_le (by omega)
    simp only [blanked, List.length_mapIdx] at hi
    simp only [blanked, clear, hmin, List.getElem_mapIdx, List.getElem_append, List.length_append,
      List.length_replicate, htake, List.getElem_take, List.getElem_replicate, List.getElem_drop]
    rcases Nat.lt_or_ge i offset with hbefore | hfrom
    · rw [if_neg (by omega), dif_pos (by omega), dif_pos hbefore]
    · rcases Nat.lt_or_ge i (offset + length) with hin | hafter
      · rw [if_pos (by omega), dif_pos hin, dif_neg (by omega)]
      · rw [if_neg (by omega), dif_neg (by omega)]
        congr 1
        omega

theorem clear_eq_self_iff {offset length : Nat} (h : offset + length ≤ data.length) :
    clear data offset length = data ↔ field data offset length = List.replicate length 0 := by
  have hmin : min length (data.length - offset) = length := by omega
  have hsplit := take_field_drop data offset length
  constructor
  · intro hclear
    rw [clear, hmin] at hclear
    have hmiddle := List.append_cancel_right (hclear.trans hsplit.symm)
    exact (List.append_cancel_left hmiddle).symm
  · intro hzero
    rw [clear, hmin, ← hzero, hsplit]

/-- What is hashed is what is to be hashed, exactly where the sub-range is found or is zeros. -/
theorem zeroBlocks_eq_blanked_iff (hzero : zero.Within range) (hdata : data.length = range.length)
    (hstop : range.location + range.length < 2 ^ 32) {n : Nat} (hn : data.length ≤ 64 * n) :
    zeroBlocks zero range.location data n = blanked range zero data ↔ Blanks range zero data := by
  obtain ⟨hfrom, hto⟩ := hzero
  obtain ⟨location, total⟩ := range
  obtain ⟨start, length⟩ := zero
  dsimp only at *
  obtain ⟨offset, rfl⟩ : ∃ offset, start = location + offset := ⟨start - location, by omega⟩
  have hoffset : location + offset - location = offset := by omega
  rw [blanked_eq_clear (by omega), Blanks, hoffset]
  by_cases hblock : offset % 64 + length ≤ 64
  · rw [zeroBlocks_within hn hblock (by omega) (by omega)]
    exact iff_of_true rfl (Or.inl hblock)
  · rw [zeroBlocks_across (by omega) (by omega), List.take_of_length_le hn, eq_comm,
      clear_eq_self_iff (by omega), or_iff_right hblock]

/-! ## The check -/

/-- A hash that tells `bytes` from all other data. -/
def marking (bytes : List UInt8) : Setup :=
  { Sample.setup with
    digest := fun data => if data = bytes then List.replicate 20 1 else List.replicate 20 0 }

theorem length_digest_marking (bytes data : List UInt8) : ((marking bytes).digest data).length = 20 := by
  simp only [marking]
  split <;> rfl

theorem digest_marking {bytes data : List UInt8} :
    (marking bytes).digest data = List.replicate 20 1 ↔ data = bytes := by
  by_cases h : data = bytes <;> simp [marking, h]

/-- If the hash that is compared is that of `bytes` whatever the hash is, then `bytes` are what is hashed. -/
theorem compares_iff_eq {hashed bytes : List UInt8}
    (h : ∀ (u : Setup) expected, ∃ data r', checkHash u.hash read r storage range zero expected =
      .ok (u.digest hashed = expected, data, r')) :
    Compares read r storage range zero bytes ↔ hashed = bytes := by
  constructor
  · intro hcompares
    obtain ⟨x, hx, hsame⟩ := hcompares (marking bytes) (length_digest_marking bytes)
      (List.replicate 20 1) rfl
    obtain ⟨data, r', hcheck⟩ := h (marking bytes) (List.replicate 20 1)
    rw [hx] at hcheck
    cases hcheck
    rw [decide_eq_true_eq, digest_marking, digest_marking] at hsame
    exact hsame.mpr rfl
  · rintro rfl u - expected -
    obtain ⟨data, r', hcheck⟩ := h u expected
    exact ⟨_, hcheck, decide_eq_true_iff⟩

theorem checkHash_reads (u : Setup) (hend : storage.location + storage.length < 2 ^ 32)
    (hrange : range.Within storage) (hreads : Reads read range states data) (zero : Range)
    (expected : List UInt8) :
    checkHash u.hash read (states 0) storage range zero expected =
      .ok (u.digest (zeroBlocks zero range.location data ((data.length + 63) / 64)) = expected, data,
        states ((data.length + 63) / 64)) := by
  obtain ⟨hfrom, hto⟩ := hrange
  obtain ⟨location, length⟩ := range
  obtain rfl : data.length = length := hreads.length
  have hstop : location + data.length < 2 ^ 32 := Nat.lt_of_le_of_lt hto hend
  exact checkHash_bytes u read states hreads.read hstop (isValidSubrange_of_le hfrom hto hend) zero expected

/-- A storage that ends in front of `2 ^ 32`. -/
theorem compares_iff (hend : storage.location + storage.length < 2 ^ 32) (hrange : range.Within storage)
    (hzero : zero.Within range) (hreads : Reads read range states data) :
    Compares read (states 0) storage range zero (blanked range zero data) ↔ Blanks range zero data := by
  have hstop : range.location + range.length < 2 ^ 32 := Nat.lt_of_le_of_lt hrange.2 hend
  rw [← zeroBlocks_eq_blanked_iff hzero hreads.length hstop
    (n := (data.length + 63) / 64) (by omega)]
  exact compares_iff_eq fun u expected => ⟨_, _, checkHash_reads u hend hrange hreads zero expected⟩

/-- The end of a storage that ends at `2 ^ 32` is 0: no range in it is checked. -/
theorem not_compares_of_end (hstorage : storage.Fits) (hend : storage.location + storage.length = 2 ^ 32)
    (hfits : range.Fits) (hrange : range.Within storage) (hdata : data.length = range.length) :
    ¬ Compares read r storage range zero (blanked range zero data) := by
  intro hcompares
  obtain ⟨hfrom, hto⟩ := hrange
  obtain ⟨hlocation, hlength⟩ := hstorage
  by_cases hvalid : isValidSubrange storage range = true
  · -- the range ends at `2 ^ 32`, too, and nothing is hashed
    have hsub := isValidSubrange_iff.mp hvalid
    have hlt := hfits.location
    have hempty := (compares_iff_eq fun u expected =>
      ⟨_, _, checkHash_empty u read r hvalid (by omega) zero expected⟩).mp hcompares
    have hnil := congrArg List.length hempty
    simp only [blanked, List.length_mapIdx, List.length_nil] at hnil
    omega
  · obtain ⟨x, hx, -⟩ := hcompares (marking []) (length_digest_marking []) (List.replicate 20 0) rfl
    rw [checkHash, Bool.eq_false_iff.mpr hvalid] at hx
    cases hx

/-! ## The packager -/

theorem clear_sections {before : List UInt8} (after : List UInt8) (version : Version) (length : Nat)
    {hash : List UInt8} (hhash : hash.length = 20) {i : Nat} (hi : before.length + 24 = i) :
    clear (sections before after version length hash) i 20 =
      sections before after version length (List.replicate 20 0) := by
  rw [sections, clear_middle _ (by simp [hi]) hhash, sections]

theorem sections_inj {before after hash hash' : List UInt8} {version : Version} {length : Nat}
    (h : sections before after version length hash = sections before after version length hash') :
    hash = hash' :=
  List.append_cancel_left (List.append_cancel_right h)

/-- The hash of a packaged executable is the one with zeros in its place, whatever the offset. -/
theorem packageExecutable_blanked {digest : List UInt8 → List UInt8}
    (hdigest : ∀ data, (digest data).length = 20) (random : Random) {firmware : List UInt8}
    {metadataOffset : Nat} {version : Version}
    (h : Package.getExecutableMetadata firmware metadataOffset = some version) (location length : Nat) :
    (Package.packageExecutable digest random firmware metadataOffset).2 =
      digest (blanked ⟨location, length⟩ ⟨location + metadataOffset + 24, 20⟩
        (Package.packageExecutable digest random firmware metadataOffset).1) := by
  obtain ⟨before, after, total, hbefore, -, -, heq⟩ := Package.packageExecutable_eq hdigest random h
  rw [heq]
  dsimp only
  rw [Nat.add_assoc, blanked_eq_clear (by simp [hbefore, hdigest]),
    clear_sections _ _ _ (hdigest _) (by rw [hbefore])]

/-- `fd_boot_check_hash` compares the expected hash with that of the bytes of the range, with zeros in the
place of the sub-range, exactly where the storage ends in front of `2 ^ 32` and the sub-range lies in one
block or is zeros. This is the hash that the packager computes for an executable. -/
theorem checkHash_compares (hstorage : storage.Fits)
    (hend : storage.location + storage.length ≤ 2 ^ 32) (hfits : range.Fits)
    (hrange : range.Within storage) (hzero : zero.Within range)
    (hreads : Reads read range states data) :
    (Compares read (states 0) storage range zero (blanked range zero data) ↔
      storage.location + storage.length < 2 ^ 32 ∧ Blanks range zero data) ∧
    ∀ (digest : List UInt8 → List UInt8) (random : Random) (firmware : List UInt8) (metadataOffset : Nat)
      (version : Version), (∀ data, (digest data).length = 20) →
      Package.getExecutableMetadata firmware metadataOffset = some version →
      data = (Package.packageExecutable digest random firmware metadataOffset).1 →
      zero = ⟨range.location + metadataOffset + 24, hashDataSize⟩ →
      (Package.packageExecutable digest random firmware metadataOffset).2 =
        digest (blanked range zero data) := by
  constructor
  · rcases Nat.lt_or_ge (storage.location + storage.length) (2 ^ 32) with hlt | hge
    · rw [compares_iff hlt hrange hzero hreads, and_iff_right hlt]
    · have hnot : ¬ Compares read (states 0) storage range zero (blanked range zero data) :=
        not_compares_of_end hstorage (by omega) hfits hrange hreads.length
      exact iff_of_false hnot fun h => by omega
  · rintro digest random firmware metadataOffset version hdigest hmetadata rfl rfl
    exact packageExecutable_blanked hdigest random hmetadata range.location range.length

/-- A field of 20 bytes in the last, shorter block. -/
theorem checkHash_compares_last : Compares (readImage fun _ => 1) () ⟨4096, 1024⟩ ⟨4096, 100⟩ ⟨4166, 20⟩
    (blanked ⟨4096, 100⟩ ⟨4166, 20⟩ (Nor.read (fun _ => 1) 4096 100)) :=
  (checkHash_compares ⟨by decide, by decide⟩ (by decide) ⟨by decide, by decide⟩ ⟨by decide, by decide⟩
    ⟨by decide, by decide⟩ (reads_image _ _)).1.mpr ⟨by decide, by decide⟩

namespace Sample

/-- An image with its metadata at 24, so that the hash is at 48. -/
def early : List UInt8 :=
  List.replicate 24 7 ++ packHeader executableMetadataHeaderMagic executableMetadataHeaderVersion ⟨1, 2, 3⟩ 0 ++
    List.replicate 40 0

/-- The image packaged, and its hash. -/
def packagedEarly : List UInt8 × List UInt8 := Package.packageExecutable setup.digest zeros early 24

def earlyFlash : Nor.Image := store (fun _ => 0xff) 4096 packagedEarly.1

end Sample

/-- A packaged executable with its hash across the end of a block: the hash of other bytes is compared. -/
theorem not_compares : Package.getExecutableMetadata Sample.early 24 = some ⟨1, 2, 3⟩ ∧
    Sample.packagedEarly.1.length = 128 ∧
    ¬ Compares (readImage Sample.earlyFlash) () ⟨4096, 1024⟩ ⟨4096, 128⟩ ⟨4096 + 24 + 24, 20⟩
      (blanked ⟨4096, 128⟩ ⟨4096 + 24 + 24, 20⟩ (Nor.read Sample.earlyFlash 4096 128)) := by
  refine ⟨by decide +kernel, by decide +kernel, fun hcompares => ?_⟩
  obtain ⟨x, hx, hvalid⟩ := hcompares Sample.setup (fun _ => List.length_replicate) Sample.packagedEarly.2
    List.length_replicate
  have hhash : Sample.setup.digest (blanked ⟨4096, 128⟩ ⟨4096 + 24 + 24, 20⟩
      (Nor.read Sample.earlyFlash 4096 128)) = Sample.packagedEarly.2 := by
    decide +kernel
  have hcheck : (checkHash Sample.setup.hash (readImage Sample.earlyFlash) () ⟨4096, 1024⟩ ⟨4096, 128⟩
      ⟨4096 + 24 + 24, 20⟩ Sample.packagedEarly.2).toOption.map (fun x => x.1) = some false := by
    decide +kernel
  simp [hx, Except.toOption, hvalid.mpr hhash] at hcheck

section

variable {u : Setup} {random : Random} {firmware : List UInt8} {metadataOffset location : Nat}
  {version : Version} {packaged : List UInt8 × List UInt8}

theorem length_packaged (hdigest : ∀ data, (u.digest data).length = 20)
    (h : Package.getExecutableMetadata firmware metadataOffset = some version)
    (hp : packaged = Package.packageExecutable u.digest random firmware metadataOffset) :
    metadataOffset + 44 ≤ packaged.1.length := by
  obtain ⟨before, after, total, hbefore, -, -, heq⟩ := Package.packageExecutable_eq hdigest random h
  rw [hp, heq, length_sections, hdigest, hbefore]
  omega

theorem packaged_accepted (hdigest : ∀ data, (u.digest data).length = 20)
    (h : Package.getExecutableMetadata firmware metadataOffset = some version)
    (hp : packaged = Package.packageExecutable u.digest random firmware metadataOffset)
    (hend : storage.location + storage.length < 2 ^ 32)
    (hroom : Range.Within ⟨location, packaged.1.length⟩ storage)
    (hblock : (metadataOffset + 24) % 64 + 20 ≤ 64) {m : Nor.Image}
    (hread : Nor.read m location packaged.1.length = packaged.1) :
    ∃ x, checkHash u.hash (readImage m) () storage ⟨location, packaged.1.length⟩
      ⟨location + metadataOffset + 24, hashDataSize⟩ packaged.2 = .ok x ∧ x.1 = true := by
  have hle := length_packaged hdigest h hp
  have hreads := reads_image m ⟨location, packaged.1.length⟩
  rw [hread] at hreads
  have hzero : Range.Within ⟨location + metadataOffset + 24, hashDataSize⟩ ⟨location, packaged.1.length⟩ :=
    ⟨by dsimp only; omega, by dsimp only [hashDataSize]; omega⟩
  have hblanks : Blanks ⟨location, packaged.1.length⟩ ⟨location + metadataOffset + 24, hashDataSize⟩
      packaged.1 :=
    Or.inl (by dsimp only [hashDataSize]; omega)
  have hhash : packaged.2 = u.digest (blanked ⟨location, packaged.1.length⟩
      ⟨location + metadataOffset + 24, hashDataSize⟩ packaged.1) := by
    rw [hp]
    exact packageExecutable_blanked hdigest random h location _
  obtain ⟨x, hcheck, hvalid⟩ := (compares_iff hend hroom hzero hreads).mpr hblanks u hdigest packaged.2
    (by rw [hhash]; exact hdigest _)
  exact ⟨x, hcheck, hvalid.mpr hhash.symm⟩

/-- With a hash that marks the bytes that the packager hashes, those with the hash in them are refused. -/
theorem packaged_refused (h : Package.getExecutableMetadata firmware metadataOffset = some version)
    (hu : u = marking (Package.packageExecutable id random firmware metadataOffset).2)
    (hp : packaged = Package.packageExecutable u.digest random firmware metadataOffset)
    (hend : storage.location + storage.length < 2 ^ 32)
    (hroom : Range.Within ⟨location, packaged.1.length⟩ storage)
    (hblock : ¬ (metadataOffset + 24) % 64 + 20 ≤ 64) {m : Nor.Image}
    (hread : Nor.read m location packaged.1.length = packaged.1) {x : Bool × List UInt8 × Unit}
    (hcheck : checkHash u.hash (readImage m) () storage ⟨location, packaged.1.length⟩
      ⟨location + metadataOffset + 24, hashDataSize⟩ packaged.2 = .ok x) : x.1 ≠ true := by
  subst hu
  have hdigest := length_digest_marking (Package.packageExecutable id random firmware metadataOffset).2
  have hle := length_packaged hdigest h hp
  obtain ⟨before, after, total, hbefore, -, -, heq⟩ := Package.packageExecutable_eq hdigest random h
  have hsecond : packaged.2 = List.replicate 20 1 := by
    rw [hp]
    exact digest_marking.mpr rfl
  rw [← hp] at heq
  have hhash : packaged.2 = (marking _).digest (sections before after version total (List.replicate 20 0)) :=
    congrArg Prod.snd heq
  have hsections : packaged.1 = sections before after version total packaged.2 := by
    rw [hhash]
    exact congrArg Prod.fst heq
  have hreads := reads_image m ⟨location, packaged.1.length⟩
  rw [hread] at hreads
  have hstop : location + packaged.1.length < 2 ^ 32 := Nat.lt_of_le_of_lt hroom.2 hend
  rw [checkHash_reads _ hend hroom hreads, Nat.add_assoc, hashDataSize,
    zeroBlocks_across (by omega) (by omega), List.take_of_length_le (by omega), hsecond] at hcheck
  cases hcheck
  intro hvalid
  -- the packaged executable would be what the packager hashed, with zeros for the hash
  have hsame := digest_marking.mp (of_decide_eq_true hvalid)
  have hmarked := digest_marking.mp (hhash.symm.trans hsecond)
  have hzeros := sections_inj (hsections.symm.trans (hsame.trans hmarked.symm))
  rw [hsecond] at hzeros
  simp at hzeros

/-- The packaged executable is accepted where it is stored, whatever the hash is, exactly where its hash
lies in one block. -/
theorem packaged_accepted_iff
    (h : Package.getExecutableMetadata firmware metadataOffset = some version)
    (hend : storage.location + storage.length < 2 ^ 32)
    (hroom : ∀ digest : List UInt8 → List UInt8, (∀ data, (digest data).length = 20) →
      Range.Within ⟨location, (Package.packageExecutable digest random firmware metadataOffset).1.length⟩
        storage) :
    (∀ u : Setup, (∀ data, (u.digest data).length = 20) →
      ∀ (m : Nor.Image) (packaged : List UInt8 × List UInt8),
        packaged = Package.packageExecutable u.digest random firmware metadataOffset →
        Nor.read m location packaged.1.length = packaged.1 →
        ∃ x, checkHash u.hash (readImage m) () storage ⟨location, packaged.1.length⟩
          ⟨location + metadataOffset + 24, hashDataSize⟩ packaged.2 = .ok x ∧ x.1 = true) ↔
      (metadataOffset + 24) % 64 + 20 ≤ 64 := by
  constructor
  · intro haccepted
    by_contra hblock
    have hdigest := length_digest_marking (Package.packageExecutable id random firmware metadataOffset).2
    have hread := read_store_self (fun _ => 0) location (Package.packageExecutable
      (marking (Package.packageExecutable id random firmware metadataOffset).2).digest random firmware
      metadataOffset).1
    obtain ⟨x, hcheck, hvalid⟩ := haccepted _ hdigest _ _ rfl hread
    exact packaged_refused h rfl rfl hend (hroom _ hdigest) hblock hread hcheck hvalid
  · rintro hblock u hdigest m packaged rfl hread
    exact packaged_accepted hdigest h rfl hend (hroom _ hdigest) hblock hread

end

end Boot
end Firefly
