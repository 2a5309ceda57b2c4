import Firefly.Boot.Board

/-!
# Firefly.Boot.Package

`tools/update/encrypt.py`: the packager of an encrypted update. The bytes of `os.urandom` are a
parameter. `packageExecutable_eq` and `package_eq` give the bytes of the two formats section by
section, and `unpack_pack` reads the metadata back.
-/

namespace Firefly
namespace Boot

open Bytes

/-! ## Fields -/

theorem field_append_left {a : List UInt8} (b : List UInt8) {i n : Nat} (h : i + n ≤ a.length) :
    field (a ++ b) i n = field a i n := by
  rw [field, field, List.drop_append_of_le_length (by omega),
    List.take_append_of_le_length (by simp; omega)]

theorem field_append_right (a : List UInt8) {b : List UInt8} {i n : Nat} (h : a.length ≤ i) :
    field (a ++ b) i n = field b (i - a.length) n := by
  rw [field, field, List.drop_append, List.drop_of_length_le h, List.nil_append]

theorem field_all {a : List UInt8} {n : Nat} (h : a.length = n) : field a 0 n = a := by
  simp [field, ← h]

theorem field_field (data : List UInt8) {i n j k : Nat} (h : j + k ≤ n) :
    field (field data i n) j k = field data (i + j) k := by
  rw [field, field, field, List.drop_take, List.drop_drop, List.take_take, Nat.min_eq_left (by omega)]

theorem field_add (data : List UInt8) (i n k : Nat) :
    field data i (n + k) = field data i n ++ field data (i + n) k := by
  rw [field, field, field, List.take_add, List.drop_drop]

theorem take_field_drop (data : List UInt8) (i n : Nat) :
    data.take i ++ field data i n ++ data.drop (i + n) = data := by
  rw [List.append_assoc, field, ← List.drop_drop, List.take_append_drop, List.take_append_drop]

theorem leBytes_uint32 {data : List UInt8} {i : Nat} (h : i + 4 ≤ data.length) :
    leBytes 4 (uint32 data i) = field data i 4 := by
  have hlen : (field data i 4).length = 4 := length_field h
  have hbytes := leBytes_leNat (field data i 4)
  rw [hlen] at hbytes
  exact hbytes

theorem uint32_leBytes {data : List UInt8} {i n : Nat} (hn : n < 2 ^ 32)
    (h : field data i 4 = leBytes 4 n) : uint32 data i = n := by
  rw [uint32, h]
  exact leNat_leBytes_of_lt hn

theorem uint32_lt {data : List UInt8} {i : Nat} (h : i + 4 ≤ data.length) :
    uint32 data i < 2 ^ 32 := by
  have hlen : (field data i 4).length = 4 := length_field h
  have hlt := leNat_lt (field data i 4)
  rw [hlen] at hlt
  exact hlt

/-! ## Metadata -/

structure Version.Fits (v : Version) : Prop where
  major : v.major < 2 ^ 32
  minor : v.minor < 2 ^ 32
  patch : v.patch < 2 ^ 32

def Version.pack (v : Version) : List UInt8 := leBytes 4 v.major ++ leBytes 4 v.minor ++ leBytes 4 v.patch

/-- The metadata of an executable of which the hash is not there yet. -/
def packHeader (magic headerVersion : Nat) (version : Version) (length : Nat) : List UInt8 :=
  leBytes 4 magic ++ leBytes 4 headerVersion ++ version.pack ++ leBytes 4 length

@[simp] theorem Version.length_pack (v : Version) : v.pack.length = 12 := by
  simp [Version.pack]

@[simp] theorem length_packHeader (magic headerVersion : Nat) (version : Version) (length : Nat) :
    (packHeader magic headerVersion version length).length = 24 := by
  simp [packHeader]

/-- The fields of a section that begins with a header and a hash. -/
theorem unpack_packHeader (magic headerVersion : Nat) {length : Nat} {version : Version} {hash : List UInt8}
    (rest : List UInt8) (hfits : version.Fits) (hlength : length < 2 ^ 32) (hhash : hash.length = 20) :
    ExecutableMetadata.unpack ((packHeader magic headerVersion version length ++ hash ++ rest).drop 8) =
      ⟨version, length, hash⟩ := by
  have hdrop : (packHeader magic headerVersion version length ++ hash ++ rest).drop 8 =
      leBytes 4 version.major ++ (leBytes 4 version.minor ++ (leBytes 4 version.patch ++
        (leBytes 4 length ++ (hash ++ rest)))) := by
    have h : packHeader magic headerVersion version length ++ hash ++ rest =
        (leBytes 4 magic ++ leBytes 4 headerVersion) ++ (leBytes 4 version.major ++
          (leBytes 4 version.minor ++ (leBytes 4 version.patch ++ (leBytes 4 length ++
            (hash ++ rest))))) := by
      simp only [packHeader, Version.pack, List.append_assoc]
    rw [h, List.drop_left' (by simp)]
  obtain ⟨major, minor, patch⟩ := version
  rw [hdrop]
  refine ExecutableMetadata.mk.injEq .. ▸ ⟨Version.mk.injEq .. ▸ ⟨?_, ?_, ?_⟩, ?_, ?_⟩
  · exact uint32_leBytes hfits.major (by simp [field_append_left, field_all])
  · exact uint32_leBytes hfits.minor (by simp [field_append_left, field_append_right, field_all])
  · exact uint32_leBytes hfits.patch (by simp [field_append_left, field_append_right, field_all])
  · exact uint32_leBytes hlength (by simp [field_append_left, field_append_right, field_all])
  · simp [field_append_left, field_append_right, field_all, hhash]

theorem executable_unpack_field (data : List UInt8) (i : Nat) :
    ExecutableMetadata.unpack (field data i 36) = ExecutableMetadata.unpack (data.drop i) := by
  have hfield : ∀ j k, j + k ≤ 36 → field (field data i 36) j k = field (data.drop i) j k := by
    intro j k h
    rw [field_field _ h, field, field, List.drop_drop]
  simp only [ExecutableMetadata.unpack, uint32]
  rw [hfield, hfield, hfield, hfield, hfield]
  all_goals omega

theorem unpack_field (data : List UInt8) (i : Nat) :
    UpdateMetadata.unpack (field data i 76) = UpdateMetadata.unpack (data.drop i) := by
  have hfield : ∀ j k, j + k ≤ 76 → field (field data i 76) j k = field (data.drop i) j k := by
    intro j k h
    rw [field_field _ h, field, field, List.drop_drop]
  simp only [UpdateMetadata.unpack, ExecutableMetadata.unpack, uint32]
  rw [hfield, hfield, hfield, hfield, hfield, hfield, hfield, hfield]
  all_goals omega

structure UpdateMetadata.Fits (m : UpdateMetadata) : Prop where
  version : m.executableMetadata.version.Fits
  length : m.executableMetadata.length < 2 ^ 32
  executableHash : m.executableMetadata.hash.length = 20
  hash : m.hash.length = 20
  flags : m.flags < 2 ^ 32
  initializationVector : m.initializationVector.length = 16

/-- The 128 bytes of metadata. -/
def packMetadata (m : UpdateMetadata) : List UInt8 :=
  packHeader updateMetadataHeaderMagic updateMetadataHeaderVersion m.executableMetadata.version
      m.executableMetadata.length ++ m.executableMetadata.hash ++ m.hash ++
    (leBytes 4 m.flags ++ m.initializationVector ++ leBytes 4 0 ++ List.replicate 40 0)

theorem UpdateMetadata.Fits.length_packMetadata {m : UpdateMetadata} (h : m.Fits) :
    (packMetadata m).length = 128 := by
  simp [packMetadata, h.executableHash, h.hash, h.initializationVector]

theorem unpack_packMetadata {m : UpdateMetadata} (h : m.Fits) (rest : List UInt8) :
    UpdateMetadata.unpack ((packMetadata m ++ rest).drop 8) = m := by
  have hexecutable := unpack_packHeader updateMetadataHeaderMagic updateMetadataHeaderVersion
    (m.hash ++ (leBytes 4 m.flags ++ m.initializationVector ++ leBytes 4 0 ++ List.replicate 40 0) ++ rest)
    h.version h.length h.executableHash
  let front := packHeader updateMetadataHeaderMagic updateMetadataHeaderVersion
    m.executableMetadata.version m.executableMetadata.length ++ m.executableMetadata.hash
  have hfront : front.length = 44 := by simp [front, h.executableHash]
  have hdrop : ∀ i k, field ((packMetadata m ++ rest).drop 8) (36 + i) k =
      field (m.hash ++ (leBytes 4 m.flags ++ (m.initializationVector ++ (leBytes 4 0 ++
        (List.replicate 40 0 ++ rest))))) i k := by
    intro i k
    have hsplit : packMetadata m ++ rest = front ++ (m.hash ++ (leBytes 4 m.flags ++
        (m.initializationVector ++ (leBytes 4 0 ++ (List.replicate 40 0 ++ rest))))) := by
      simp only [packMetadata, front, List.append_assoc]
    have hi : 8 + (36 + i) = front.length + i := by omega
    rw [hsplit, field, List.drop_drop, hi, field, ← List.drop_drop, List.drop_left]
  obtain ⟨executable, hash, flags, iv⟩ := m
  refine UpdateMetadata.mk.injEq .. ▸ ⟨?_, ?_, ?_, ?_⟩
  · simpa only [packMetadata, List.append_assoc] using hexecutable
  · rw [hdrop 0 20, field_append_left _ (by simp [h.hash]), field_all h.hash]
  · refine uint32_leBytes h.flags ?_
    rw [hdrop 20 4, field_append_right _ (by simp [h.hash])]
    simp [field_append_left, field_all, h.hash]
  · rw [hdrop 24 16, field_append_right _ (by simp [h.hash]), field_append_right _ (by simp [h.hash])]
    simp [field_append_left, field_all, h.hash, h.initializationVector]

/-- The sections of an executable, with `hash` as its hash. -/
def sections (before after : List UInt8) (version : Version) (length : Nat) (hash : List UInt8) :
    List UInt8 :=
  before ++ packHeader executableMetadataHeaderMagic executableMetadataHeaderVersion version length ++
    hash ++ (after ++ leBytes 4 executableTrailerMagic)

@[simp] theorem length_sections (before after : List UInt8) (version : Version) (length : Nat)
    (hash : List UInt8) : (sections before after version length hash).length =
      before.length + 24 + hash.length + (after.length + 4) := by
  simp [sections, -List.append_assoc]

/-- Metadata of which the hash is still zero, with a body and the footer, and its hash over all of it. -/
def frame (digest : List UInt8 → List UInt8) (m : UpdateMetadata) (body footer : List UInt8) : List UInt8 :=
  packMetadata { m with hash := digest (packMetadata m ++ (body ++ (footer ++
    leBytes 4 updateTrailerMagic))) } ++ (body ++ (footer ++ leBytes 4 updateTrailerMagic))

/-! ## Sections that are replaced -/

theorem clear_middle {a b : List UInt8} (c : List UInt8) {i n : Nat} (ha : a.length = i) (hb : b.length = n) :
    clear (a ++ b ++ c) i n = a ++ List.replicate n 0 ++ c := by
  subst ha hb
  have hmin : min b.length ((a ++ b ++ c).length - a.length) = b.length := by
    simp
  rw [clear, hmin, List.append_assoc a b c, List.take_left, ← List.drop_drop, List.drop_left, List.drop_left]

/-- Python's `collection[start:start + len(replacement)] = replacement`. -/
def replace (data : List UInt8) (start : Nat) (replacement : List UInt8) : List UInt8 :=
  data.take start ++ replacement ++ data.drop (start + replacement.length)

theorem replace_middle {a b r : List UInt8} (c : List UInt8) {i : Nat} (ha : a.length = i)
    (hr : r.length = b.length) : replace (a ++ b ++ c) i r = a ++ r ++ c := by
  subst ha
  rw [replace, hr, List.append_assoc a b c, List.take_left, ← List.drop_drop, List.drop_left, List.drop_left]

/-! ## The packager -/

/-- The bytes that one call of `os.urandom` gives. -/
structure Random where
  bytes : Nat → List UInt8
  length_bytes : ∀ n, (bytes n).length = n

def pad (random : Random) (data : List UInt8) (blockSize : Nat) : List UInt8 :=
  if data.length % blockSize = 0 then data
  else data ++ random.bytes (blockSize - data.length % blockSize)

theorem length_pad (random : Random) (data : List UInt8) {blockSize : Nat} (h : 0 < blockSize) :
    (pad random data blockSize).length % blockSize = 0 := by
  unfold pad
  split
  · assumption
  · have hlt := Nat.mod_lt data.length h
    have hsum : data.length + (blockSize - data.length % blockSize) =
        blockSize * (data.length / blockSize + 1) := by
      have := Nat.div_add_mod data.length blockSize
      rw [Nat.mul_succ]
      omega
    rw [List.length_append, random.length_bytes, hsum, Nat.mul_mod_right]

theorem pad_eq (random : Random) (data : List UInt8) (blockSize : Nat) :
    ∃ tail, pad random data blockSize = data ++ tail := by
  unfold pad
  split
  · exact ⟨[], by simp⟩
  · exact ⟨_, rfl⟩

namespace Package

/-- What is not accepted raises an exception. -/
def getExecutableMetadata (firmware : List UInt8) (metadataOffset : Nat) : Option Version :=
  let data := field firmware metadataOffset 64
  if data.length ≠ 64 then none
  else if uint32 data 0 ≠ executableMetadataHeaderMagic then none
  else if uint32 data 4 ≠ executableMetadataHeaderVersion then none
  else if uint32 data 20 ≠ 0 then none
  else if field data 24 20 ≠ List.replicate 20 0 then none
  else if uint32 data 44 ≠ 0 then none
  else some ⟨uint32 data 8, uint32 data 12, uint32 data 16⟩

/-- The executable and its hash. -/
def packageExecutable (hash : List UInt8 → List UInt8) (random : Random) (data : List UInt8)
    (metadataOffset : Nat) : List UInt8 × List UInt8 :=
  let data := pad random (data ++ List.replicate 4 0) 64
  let data := data.take (data.length - 4) ++ leBytes 4 executableTrailerMagic
  let data := replace data (metadataOffset + 20) (leBytes 4 data.length)
  let hash := hash data
  (replace data (metadataOffset + 24) hash, hash)

def packageUpdate (hash : List UInt8 → List UInt8) (random : Random) (data : List UInt8) : List UInt8 :=
  let data := data ++ (random.bytes 60 ++ leBytes 4 updateTrailerMagic)
  replace data 44 (hash data)

theorem length_packageUpdate {hash : List UInt8 → List UInt8} (hhash : ∀ data, (hash data).length = 20)
    {random : Random} {data : List UInt8} (h : 64 ≤ data.length) :
    (packageUpdate hash random data).length = data.length + 64 := by
  rw [packageUpdate, replace]
  simp only [List.length_append, List.length_take, List.length_drop, hhash, random.length_bytes,
    length_leBytes]
  omega

variable (cipher : Cbc.BlockCipher (List UInt8) 16)

def encryptData (key initializationVector data : List UInt8) : List UInt8 :=
  Cbc.encrypt cipher key (data.length / 16) initializationVector data

/-- `package`: the executable and the update. -/
def package (hash : List UInt8 → List UInt8) (key initializationVector : List UInt8)
    (padding footer : Random) (executableData : List UInt8) (metadataOffset : Nat) :
    Option (List UInt8 × List UInt8) := do
  let version ← getExecutableMetadata executableData metadataOffset
  let (executable, executableHash) := packageExecutable hash padding executableData metadataOffset
  let encryptedExecutable := encryptData cipher key initializationVector executable
  let metadata := packMetadata
    ⟨⟨version, executable.length, executableHash⟩, List.replicate 20 0, 1, initializationVector⟩
  let encryptedMetadata := encryptData cipher key initializationVector metadata
  return (executable, packageUpdate hash footer (metadata ++ encryptedMetadata ++ encryptedExecutable))

/-! ## The bytes of the formats -/

theorem getExecutableMetadata_some {firmware : List UInt8} {metadataOffset : Nat} {version : Version}
    (h : getExecutableMetadata firmware metadataOffset = some version) :
    metadataOffset + 64 ≤ firmware.length ∧ version.Fits ∧
      field firmware metadataOffset 44 = packHeader executableMetadataHeaderMagic
        executableMetadataHeaderVersion version 0 ++ List.replicate 20 0 := by
  rw [getExecutableMetadata] at h
  generalize hdata : field firmware metadataOffset 64 = data at h
  simp only [ne_eq, Option.ite_none_left_eq_some, Decidable.not_not, Option.some.injEq] at h
  obtain ⟨hlen, hmagic, hversion, hlength, hhash, -, rfl⟩ := h
  have hfield : field firmware metadataOffset 44 = field data 0 44 := by
    rw [← hdata, field_field _ (by omega), Nat.add_zero]
  have hsplit : field data 0 44 = field data 0 4 ++ field data 4 4 ++ (field data 8 4 ++
      field data 12 4 ++ field data 16 4) ++ field data 20 4 ++ field data 24 20 := by
    rw [field_add data 0 4 40, field_add data 4 4 36, field_add data 8 4 32, field_add data 12 4 28,
      field_add data 16 4 24, field_add data 20 4 20]
    simp only [List.append_assoc]
  have hzero : leBytes 4 0 = field data 20 4 := by rw [← leBytes_uint32 (by omega), hlength]
  have hle : data.length ≤ firmware.length - metadataOffset := by
    rw [← hdata]
    simp [field]
  refine ⟨by omega, ⟨uint32_lt (by omega), uint32_lt (by omega), uint32_lt (by omega)⟩, ?_⟩
  rw [hfield, hsplit, packHeader, Version.pack, ← hmagic, ← hversion, hzero, hhash]
  simp only [leBytes_uint32, hlen, Nat.reduceAdd, Nat.reduceLeDiff]

/-- The packaged executable, with the hash of what it is before the hash is there. -/
theorem packageExecutable_eq {hash : List UInt8 → List UInt8} (hhash : ∀ data, (hash data).length = 20)
    (random : Random) {data : List UInt8} {metadataOffset : Nat} {version : Version}
    (h : getExecutableMetadata data metadataOffset = some version) :
    ∃ before after length, before.length = metadataOffset ∧ length % 64 = 0 ∧
      (sections before after version length (List.replicate 20 0)).length = length ∧
        packageExecutable hash random data metadataOffset =
          (sections before after version length
              (hash (sections before after version length (List.replicate 20 0))),
            hash (sections before after version length (List.replicate 20 0))) := by
  obtain ⟨hle, -, hheader⟩ := getExecutableMetadata_some h
  let header := packHeader executableMetadataHeaderMagic executableMetadataHeaderVersion version
  obtain ⟨before, rest, hbefore, hdata⟩ : ∃ before rest, before.length = metadataOffset ∧
      data = before ++ header 0 ++ List.replicate 20 0 ++ rest := by
    refine ⟨data.take metadataOffset, data.drop (metadataOffset + 44), by simp; omega, ?_⟩
    have hdata := take_field_drop data metadataOffset 44
    rw [hheader] at hdata
    simpa only [List.append_assoc] using hdata.symm
  obtain ⟨tail, htail⟩ := pad_eq random (data ++ List.replicate 4 0) 64
  have hmod := length_pad random (data ++ List.replicate 4 0) (by decide : 0 < 64)
  -- what follows the hash field, and the same without the place of the trailer
  let ending := rest ++ List.replicate 4 0 ++ tail
  let after := ending.take (ending.length - 4)
  have hend : 4 ≤ ending.length := by
    simp [ending]
    omega
  have hpad : pad random (data ++ List.replicate 4 0) 64 =
      (before ++ header 0 ++ List.replicate 20 0) ++ ending := by
    rw [htail, hdata]
    simp only [ending, List.append_assoc]
  rw [hpad] at hmod
  have hfront : (before ++ header 0 ++ List.replicate 20 0).length = metadataOffset + 44 := by
    simp [hbefore, header]
  have hlen : ((before ++ header 0 ++ List.replicate 20 0) ++ ending).length =
      metadataOffset + 44 + ending.length := by
    rw [List.length_append, hfront]
  have htrailer : ((before ++ header 0 ++ List.replicate 20 0) ++ ending).take
        (metadataOffset + 44 + ending.length - 4) ++ leBytes 4 executableTrailerMagic =
      before ++ header 0 ++ List.replicate 20 0 ++ (after ++ leBytes 4 executableTrailerMagic) := by
    have htake : metadataOffset + 44 + ending.length - 4 =
        (before ++ header 0 ++ List.replicate 20 0).length + (ending.length - 4) := by omega
    rw [htake, List.take_length_add_append, List.append_assoc]
  have hexecutable : ∀ n, (before ++ header n ++ List.replicate 20 0 ++
      (after ++ leBytes 4 executableTrailerMagic)).length = metadataOffset + 44 + ending.length := by
    intro n
    simp [hbefore, header, after, -List.append_assoc]
    omega
  refine ⟨before, after, metadataOffset + 44 + ending.length, hbefore, hlen ▸ hmod, hexecutable _, ?_⟩
  have hreplace : ∀ n, replace (before ++ header 0 ++ List.replicate 20 0 ++
        (after ++ leBytes 4 executableTrailerMagic)) (metadataOffset + 20) (leBytes 4 n) =
      before ++ header n ++ List.replicate 20 0 ++ (after ++ leBytes 4 executableTrailerMagic) := by
    intro n
    have hmid := replace_middle (a := before ++ (leBytes 4 executableMetadataHeaderMagic ++
      leBytes 4 executableMetadataHeaderVersion ++ version.pack)) (b := leBytes 4 0) (r := leBytes 4 n)
      (i := metadataOffset + 20) (List.replicate 20 0 ++ (after ++ leBytes 4 executableTrailerMagic))
      (by simp [hbefore]) (by simp)
    simpa only [header, packHeader, List.append_assoc] using hmid
  rw [packageExecutable, hpad]
  dsimp only [sections]
  rw [hlen, htrailer, hexecutable, hreplace, replace_middle _ (by simp [hbefore, header]) (by simp [hhash])]

theorem packageUpdate_eq {hash : List UInt8 → List UInt8} (hhash : ∀ data, (hash data).length = 20)
    {random : Random} {m : UpdateMetadata} (hfits : m.Fits) (rest : List UInt8) :
    packageUpdate hash random (packMetadata m ++ rest) = frame hash m rest (random.bytes 60) := by
  let front := packHeader updateMetadataHeaderMagic updateMetadataHeaderVersion
    m.executableMetadata.version m.executableMetadata.length ++ m.executableMetadata.hash
  have hfront : front.length = 44 := by simp [front, hfits.executableHash]
  rw [packageUpdate, frame, List.append_assoc]
  generalize hdigest : hash (packMetadata m ++ (rest ++ (random.bytes 60 ++
    leBytes 4 updateTrailerMagic))) = digest
  have hlen : digest.length = 20 := by rw [← hdigest, hhash]
  have hmid := replace_middle (a := front) (b := m.hash) (r := digest)
    (leBytes 4 m.flags ++ m.initializationVector ++ leBytes 4 0 ++ List.replicate 40 0 ++
      (rest ++ (random.bytes 60 ++ leBytes 4 updateTrailerMagic))) hfront (by rw [hlen, hfits.hash])
  simpa only [packMetadata, front, List.append_assoc] using hmid

end Package

end Boot
end Firefly
