import Firefly.Boot.Package
import Firefly.Boot.Safety

/-!
# Firefly.Boot.Install

The update that the packager builds, on a board without a valid executable: it is accepted, it is
installed block by block on flash pages that are erased on the way, and the flash then holds the
packaged executable, which the boot loader takes as valid.
-/

namespace Firefly
namespace Boot

open Bytes Result

theorem isValidSubrange_iff {storage : Range} {location length : Nat} :
    isValidSubrange storage ⟨location, length⟩ = true ↔ storage.location ≤ location ∧
      (location + length) % 2 ^ 32 ≤ (storage.location + storage.length) % 2 ^ 32 := by
  rw [isValidSubrange, Bool.and_eq_true, decide_eq_true_eq, decide_eq_true_eq]

theorem isValidSubrange_of_le {storage : Range} {location length : Nat} (hstart : storage.location ≤ location)
    (hend : location + length ≤ storage.location + storage.length)
    (hstop : storage.location + storage.length < 2 ^ 32) :
    isValidSubrange storage ⟨location, length⟩ = true := by
  have hmod : (location + length) % 2 ^ 32 = location + length := Nat.mod_eq_of_lt (by omega)
  have hmod' : (storage.location + storage.length) % 2 ^ 32 = storage.location + storage.length :=
    Nat.mod_eq_of_lt hstop
  refine isValidSubrange_iff.mpr ⟨hstart, ?_⟩
  rw [hmod, hmod']
  exact hend

/-! ## Flash that is erased by the page -/

/-- From `first` on each call erases one page or more, those with the location first, below `2 ^ 32`. -/
structure Setup.ErasesPages (u : Setup) (page first length : Nat) : Prop where
  pos : 0 < page
  aligned : page % 16 = 0
  erase : ∀ flash location, first ≤ location → location < first + length →
    ∃ count, 0 < count ∧ location - location % page + page * count ≤ 2 ^ 32 ∧
      u.erase flash location length =
        ((location - location % page + page * count) % 2 ^ 32,
          Nor.erase flash (location - location % page) (page * count))

theorem read_store_self (m : Nor.Image) (a : Nat) (data : List UInt8) :
    Nor.read (store m a data) a data.length = data := by
  refine List.ext_getElem? fun i => ?_
  rw [Nor.getElem?_read]
  by_cases h : i < data.length
  · have hin : a ≤ a + i ∧ a + i < a + data.length := by omega
    rw [if_pos h, store, if_pos hin, Nat.add_sub_cancel_left, List.getElem?_eq_getElem h,
      List.getD_eq_getElem _ _ h]
  · rw [if_neg h, List.getElem?_eq_none (by omega)]

theorem read_store_before (m : Nor.Image) {a n b : Nat} (data : List UInt8) (h : a + n ≤ b) :
    Nor.read (store m b data) a n = Nor.read m a n := by
  refine Nor.read_congr fun x _ hx => ?_
  rw [store, if_neg (by omega)]

theorem read_erase_before (m : Nor.Image) {a n b k : Nat} (h : a + n ≤ b) :
    Nor.read (Nor.erase m b k) a n = Nor.read m a n :=
  Nor.read_congr fun _ _ hx => Nor.erase_outside (by omega)

namespace Setup

variable {u : Setup} {d : Board}

/-- What was written so far stays, since a page is erased before its first byte is written. -/
def Written (page first : Nat) (image : List UInt8) (k : Nat) (flash : Nor.Image) (next : Nat) : Prop :=
  Nor.read flash first (16 * k) = image.take (16 * k) ∧
    ((k = 0 ∧ next = first) ∨ (0 < k ∧ next % page = 0))

theorem written_flashing {page first n : Nat} {image : List UInt8} (hpages : u.ErasesPages page first (16 * n))
    (himage : image.length = 16 * n) (hstop : first + 16 * n < 2 ^ 32) {k next : Nat} {flash : Nor.Image}
    (hk : k < n) (h : Written page first image k flash next) :
    Written page first image (k + 1)
      (u.flashing (16 * n) flash next ((first + 16 * k) % 2 ^ 32) (field image (16 * k) 16)).1
      (u.flashing (16 * n) flash next ((first + 16 * k) % 2 ^ 32) (field image (16 * k) 16)).2 := by
  obtain ⟨hread, hnext⟩ := h
  have hmod : (first + 16 * k) % 2 ^ 32 = first + 16 * k := Nat.mod_eq_of_lt (by omega)
  have hfield : (field image (16 * k) 16).length = 16 := length_field (by omega)
  -- an erasure keeps what was written, and the next one is at a page
  have herase : Nor.read (u.erasing (16 * n) flash next (first + 16 * k)).2 first (16 * k) =
      image.take (16 * k) ∧ (u.erasing (16 * n) flash next (first + 16 * k)).1 % page = 0 := by
    unfold erasing
    split
    · rename_i heq
      obtain ⟨count, -, hle, herase⟩ := hpages.erase flash (first + 16 * k) (by omega) (by omega)
      rw [herase]
      refine ⟨?_, ?_⟩
      · rcases hnext with ⟨rfl, -⟩ | ⟨-, hpage⟩
        · simp [Nor.read]
        · have hstart : first + 16 * k - (first + 16 * k) % page = first + 16 * k := by
            rw [← heq, hpage, Nat.sub_zero]
          rw [hstart, read_erase_before _ (Nat.le_refl _), hread]
      · have hdvd : (first + 16 * k - (first + 16 * k) % page + page * count) % page = 0 := by
          rw [Nat.add_mul_mod_self_left]
          exact Nat.sub_mod_eq_zero_of_mod_eq (Nat.mod_mod _ _).symm
        rcases Nat.lt_or_eq_of_le hle with hlt | heq'
        · rw [Nat.mod_eq_of_lt hlt, hdvd]
        · rw [heq', Nat.mod_self, Nat.zero_mod]
    · rename_i hne
      refine ⟨hread, ?_⟩
      rcases hnext with ⟨rfl, rfl⟩ | ⟨-, hpage⟩
      · exact absurd rfl hne
      · exact hpage
  rw [hmod]
  refine ⟨?_, Or.inr ⟨Nat.succ_pos k, herase.2⟩⟩
  have hblock := read_store_self (u.erasing (16 * n) flash next (first + 16 * k)).2 (first + 16 * k)
    (field image (16 * k) 16)
  rw [hfield] at hblock
  rw [flashing, Nat.mul_succ, Nor.read_add, read_store_before _ _ (Nat.le_refl _), herase.1, hblock,
    field, ← List.take_add]

/-- The installation on flash that is erased by the page. -/
theorem install_pages {metadata : UpdateMetadata} (hiv : metadata.initializationVector.length = 16)
    {page n : Nat} (hlen : metadata.executableMetadata.length = 16 * n)
    (hpages : u.ErasesPages page u.executable.location (16 * n))
    (hsource : executableLocation u.updateStorage metadata + 16 * n < 2 ^ 32)
    (hstop : u.executable.location + 16 * n < 2 ^ 32) :
    ∃ d', u.interface.install d metadata = .ok d' ∧
      Nor.read d'.flash u.executable.location (16 * n) = u.plain metadata.initializationVector
        (Nor.read d.update (executableLocation u.updateStorage metadata) (16 * n)) := by
  have himage := length_plain (u := u) (n := n) hiv
    (Nor.length_read d.update (executableLocation u.updateStorage metadata) (16 * n))
  obtain ⟨d', hd', -, -, next, hread, -⟩ := install_ok (d := d) hiv hlen hsource (by omega) rfl
    (F := Written page u.executable.location _) ⟨by simp [Nor.read], Or.inl ⟨rfl, rfl⟩⟩
    fun k flash next hk h => written_flashing hpages himage hstop hk h
  rw [List.take_of_length_le (by omega)] at hread
  exact ⟨d', hd', hread⟩

/-! ## A packaged executable is valid -/

theorem drop_sections (before after : List UInt8) (version : Version) (length : Nat) (hash : List UInt8) :
    (sections before after version length hash).drop before.length =
      packHeader executableMetadataHeaderMagic executableMetadataHeaderVersion version length ++ hash ++
        (after ++ leBytes 4 executableTrailerMagic) := by
  rw [sections, List.append_assoc, List.append_assoc, List.drop_left, List.append_assoc]

theorem getExecutableMetadata_sections {before after : List UInt8} {version : Version} {length : Nat}
    {hash : List UInt8} (hoffset : before.length = u.executable.metadataOffset)
    (hblock : u.executable.metadataOffset % 64 = 0) (hfits : version.Fits) (hhash : hash.length = 20)
    (hlen : (sections before after version length hash).length = length) (hmod : length % 64 = 0)
    (hstorage : u.executableStorage.location ≤ u.executable.location)
    (hfit : u.executable.location + length ≤ u.executableStorage.location + u.executableStorage.length)
    (hstop : u.executableStorage.location + u.executableStorage.length < 2 ^ 32)
    (hdigest : hash = u.digest (sections before after version length (List.replicate 20 0)))
    (hflash : Nor.read d.flash u.executable.location length =
      sections before after version length hash) :
    u.interface.getExecutableMetadata d = .ok (.ok ⟨version, length, hash⟩) := by
  generalize hdata : sections before after version length hash = data at hlen hflash
  have hsize : u.executable.metadataOffset + 48 ≤ length := by
    rw [← hlen, ← hdata, sections]
    simp [hoffset, hhash]
    omega
  have hread : ∀ a k, a + k ≤ length → Nor.read d.flash (u.executable.location + a) k = field data a k := by
    intro a k h
    rw [← hflash, field_read _ _ h]
  have hdrop := drop_sections before after version length hash
  rw [hdata, hoffset] at hdrop
  have hheader : field data u.executable.metadataOffset 8 =
      leBytes 4 executableMetadataHeaderMagic ++ leBytes 4 executableMetadataHeaderVersion := by
    rw [field, hdrop, packHeader]
    simp only [List.append_assoc]
    rw [← List.append_assoc, List.take_left' (by simp)]
  have hmetadata : ExecutableMetadata.unpack (field data (u.executable.metadataOffset + 8) 36) =
      ⟨version, length, hash⟩ := by
    have h := unpack_packHeader executableMetadataHeaderMagic executableMetadataHeaderVersion
      (after ++ leBytes 4 executableTrailerMagic) hfits (by omega : length < 2 ^ 32) hhash
    rw [← hdrop, List.drop_drop] at h
    rw [executable_unpack_field, h]
  have htrailer : field data (length - 4) 4 = leBytes 4 executableTrailerMagic := by
    have hsplit : data = (before ++ packHeader executableMetadataHeaderMagic
        executableMetadataHeaderVersion version length ++ hash ++ after) ++
          leBytes 4 executableTrailerMagic := by
      rw [← hdata, sections]
      simp only [List.append_assoc]
    rw [hsplit] at hlen ⊢
    rw [List.length_append, length_leBytes] at hlen
    rw [field_append_right _ (by omega), Nat.sub_eq_zero_of_le (by omega), field_all (length_leBytes _ _)]
  obtain ⟨n, rfl⟩ : ∃ n, length = 64 * n := ⟨length / 64, by omega⟩
  -- the reads
  have hmagic : uint32 (Nor.read d.flash (u.executable.location + u.executable.metadataOffset) 8) 0 =
      executableMetadataHeaderMagic := by
    rw [hread _ _ (by omega), hheader]
    decide
  have hversion : uint32 (Nor.read d.flash (u.executable.location + u.executable.metadataOffset) 8) 4 =
      executableMetadataHeaderVersion := by
    rw [hread _ _ (by omega), hheader]
    decide
  have hfields : ExecutableMetadata.unpack
      (Nor.read d.flash (u.executable.location + u.executable.metadataOffset + 8) 36) =
        ⟨version, 64 * n, hash⟩ := by
    rw [Nat.add_assoc, hread _ _ (by omega), hmetadata]
  have hend : uint32 (Nor.read d.flash (u.executable.location + 64 * n - 4) 4) 0 = executableTrailerMagic := by
    rw [Nat.add_sub_assoc (by omega), hread _ _ (by omega), htrailer]
    decide
  have hvalid : ∀ a k, a + k ≤ 64 * n →
      isValidSubrange u.executableStorage ⟨u.executable.location + a, k⟩ = true := by
    intro a k h
    exact isValidSubrange_of_le (by omega) (by omega) hstop
  have hmod₁ : (u.executable.location + u.executable.metadataOffset) % 2 ^ 32 =
      u.executable.location + u.executable.metadataOffset := Nat.mod_eq_of_lt (by omega)
  have hmod₂ : (u.executable.location + u.executable.metadataOffset + 8) % 2 ^ 32 =
      u.executable.location + u.executable.metadataOffset + 8 := Nat.mod_eq_of_lt (by omega)
  have hmod₃ : (u.executable.location + 64 * n + (2 ^ 32 - 4)) % 2 ^ 32 = u.executable.location + 64 * n - 4 := by
    omega
  have hmod₄ : (u.executable.location + u.executable.metadataOffset + 24) % 2 ^ 32 =
      u.executable.location + (u.executable.metadataOffset + 24) := by
    omega
  have hclear : clear data (u.executable.metadataOffset + 24) 20 =
      sections before after version (64 * n) (List.replicate 20 0) := by
    rw [← hdata]
    exact clear_middle _ (by simp [hoffset]) hhash
  have hcheck := checkHash_ok u (Interface.reader d u.interface.executableRead) (fun _ => ()) hlen
    (fun k hk => by
      rw [← hread _ _ (by omega)]
      rfl)
    (by omega) (hvalid 0 (64 * n) (by omega)) ⟨u.executable.location + (u.executable.metadataOffset + 24), 20⟩ hash
  rw [Nat.add_zero, zeroBlocks_eq_clear hlen (by omega) (by omega) (by omega), hclear, ← hdigest] at hcheck
  have hvalid₁ := hvalid u.executable.metadataOffset 8 (by omega)
  have hvalid₂ := hvalid (u.executable.metadataOffset + 8) 36 (by omega)
  have hvalid₃ := hvalid (64 * n - 4) 4 (by omega)
  rw [← Nat.add_assoc] at hvalid₂
  rw [← Nat.add_sub_assoc (by omega)] at hvalid₃
  have hexecutable : u.interface.checkExecutable d u.executableStorage u.executable ⟨version, 64 * n, hash⟩ =
      .ok (.ok ⟨version, 64 * n, hash⟩) := by
    simp -implicitDefEqProofs only [Interface.checkExecutable, hashBlockSize, hmod, ne_eq, not_true_eq_false,
      if_false, hmod₃, hvalid₃, Bool.not_true, Bool.false_eq_true, executableRead_interface, ok_bind, hend,
      hash_interface, hashDataSize, hmod₄, pure_eq]
    rw [bind_of_ok hcheck]
    simp
  simp -implicitDefEqProofs only [Interface.getExecutableMetadata, getExecutableStorage_interface,
    getExecutable_interface, ok_bind, hmod₁, hvalid₁, Bool.not_true, Bool.false_eq_true, if_false,
    executableRead_interface, hmagic, hversion, ne_eq, not_true_eq_false, hmod₂, hvalid₂, hfields, pure_eq]
  exact hexecutable

/-! ## A packaged update is valid -/

theorem readerUpdate_ok (d : Board) {data : List UInt8} {location n k : Nat} (hk : k < n)
    (hdata : Nor.read d.update location (64 * n) = data) :
    Interface.reader d u.interface.updateRead () (location + 64 * k) 64 = .ok (field data (64 * k) 64, ()) := by
  rw [← hdata, field_read _ _ (by omega)]
  rfl

/-- The check of a range of whole blocks of the update that are to be decrypted. -/
theorem checkHash_decrypted {iv : List UInt8} (hiv : iv.length = 16) {storage : Range} (location n : Nat)
    (hstop : location + 64 * n < 2 ^ 32) (hsub : isValidSubrange storage ⟨location, 64 * n⟩ = true)
    (zero : Range) (expected : List UInt8) :
    let data := u.plain iv (Nor.read d.update location (64 * n))
    checkHash u.hash (u.interface.readAndDecrypt d) (u.key, iv) storage ⟨location, 64 * n⟩ zero expected =
      .ok (u.digest (zeroBlocks zero location data n) = expected, data,
        u.key, Cbc.after u.cipher u.key iv (Nor.read d.update location (64 * n)) (4 * n)) := by
  have hlen : (u.plain iv (Nor.read d.update location (64 * n))).length = 64 * n := by
    have h : (u.plain iv (Nor.read d.update location (64 * n))).length = 16 * (4 * n) :=
      length_plain hiv (by rw [Nor.length_read]; omega)
    omega
  exact checkHash_ok u _ (fun k => (u.key, Cbc.after u.cipher u.key iv
    (Nor.read d.update location (64 * n)) (4 * k))) hlen (fun k hk => readAndDecrypt_ok hiv hk) hstop hsub
      zero expected

/-- The update storage holds metadata, a body and a footer, and nothing else. -/
structure Frames (u : Setup) (d : Board) (m : UpdateMetadata) (n : Nat) (body footer : List UInt8) :
    Prop where
  fits : m.Fits
  lengthBody : body.length = 64 * n
  lengthFooter : footer.length = 60
  size : u.updateStorage.length = 192 + 64 * n
  stop : u.updateStorage.location + (192 + 64 * n) < 2 ^ 32
  update : Nor.read d.update u.updateStorage.location (192 + 64 * n) =
    packMetadata m ++ (body ++ (footer ++ leBytes 4 updateTrailerMagic))
  hash : m.hash = u.digest (packMetadata { m with hash := List.replicate 20 0 } ++
    (body ++ (footer ++ leBytes 4 updateTrailerMagic)))

namespace Frames

variable {m : UpdateMetadata} {n : Nat} {body footer : List UInt8}

theorem read (h : u.Frames d m n body footer) {a k : Nat} (hle : a + k ≤ 192 + 64 * n) :
    Nor.read d.update (u.updateStorage.location + a) k =
      field (packMetadata m ++ (body ++ (footer ++ leBytes 4 updateTrailerMagic))) a k := by
  rw [← h.update, field_read _ _ hle]

theorem valid (h : u.Frames d m n body footer) {a k : Nat} (hle : a + k ≤ 192 + 64 * n) :
    isValidSubrange u.updateStorage ⟨u.updateStorage.location + a, k⟩ = true := by
  have hstop := h.stop
  have hsize := h.size
  exact isValidSubrange_of_le (Nat.le_add_right _ _) (by omega) (by omega)

theorem header (h : u.Frames d m n body footer) : Nor.read d.update u.updateStorage.location 8 =
    leBytes 4 updateMetadataHeaderMagic ++ leBytes 4 updateMetadataHeaderVersion := by
  have hread := h.read (a := 0) (k := 8) (by omega)
  rw [Nat.add_zero] at hread
  rw [hread, field_append_left _ (by rw [h.fits.length_packMetadata]; omega), field, packMetadata, packHeader]
  simp only [List.append_assoc]
  rw [← List.append_assoc, List.drop_zero, List.take_left' (by simp)]

theorem fields (h : u.Frames d m n body footer) :
    UpdateMetadata.unpack (Nor.read d.update (u.updateStorage.location + 8) 76) = m := by
  rw [h.read (by omega), unpack_field, unpack_packMetadata h.fits]

theorem readBody (h : u.Frames d m n body footer) {a k : Nat} (hle : a + k ≤ 64 * n) :
    Nor.read d.update (u.updateStorage.location + (128 + a)) k = field body a k := by
  have hlen := h.fits.length_packMetadata
  have hlen' := h.lengthBody
  have ha : 128 + a - 128 = a := by omega
  rw [h.read (by omega), field_append_right _ (by omega), hlen, ha, field_append_left _ (by omega)]

theorem trailer (h : u.Frames d m n body footer) :
    Nor.read d.update (u.updateStorage.location + (192 + 64 * n - 4)) 4 = leBytes 4 updateTrailerMagic := by
  have hfront : (packMetadata m ++ (body ++ footer)).length = 192 + 64 * n - 4 := by
    simp only [List.length_append, h.fits.length_packMetadata, h.lengthBody, h.lengthFooter]
    omega
  have hsplit : packMetadata m ++ (body ++ (footer ++ leBytes 4 updateTrailerMagic)) =
      (packMetadata m ++ (body ++ footer)) ++ leBytes 4 updateTrailerMagic := by
    simp only [List.append_assoc]
  rw [h.read (by omega), hsplit, field_append_right _ (by omega), hfront, Nat.sub_self,
    field_all (length_leBytes _ _)]

theorem checkHash (h : u.Frames d m n body footer) :
    ∃ data, Boot.checkHash u.hash (Interface.reader d u.interface.updateRead) () u.updateStorage
      ⟨u.updateStorage.location, 192 + 64 * n⟩ ⟨u.updateStorage.location + 44, 20⟩ m.hash =
        .ok (true, data, ()) := by
  have hstop := h.stop
  have hsize : 64 * (n + 3) = 192 + 64 * n := by omega
  have hupdate := h.update
  rw [← hsize] at hupdate
  have hclear : clear (Nor.read d.update u.updateStorage.location (64 * (n + 3))) 44 20 =
      packMetadata { m with hash := List.replicate 20 0 } ++
        (body ++ (footer ++ leBytes 4 updateTrailerMagic)) := by
    have hmid := clear_middle (a := packHeader updateMetadataHeaderMagic updateMetadataHeaderVersion
      m.executableMetadata.version m.executableMetadata.length ++ m.executableMetadata.hash)
      (b := m.hash) (i := 44) (n := 20) (leBytes 4 m.flags ++ m.initializationVector ++ leBytes 4 0 ++
        List.replicate 40 0 ++ (body ++ (footer ++ leBytes 4 updateTrailerMagic)))
      (by simp [h.fits.executableHash]) h.fits.hash
    rw [hupdate]
    simpa only [packMetadata, List.append_assoc] using hmid
  have hvalid := h.valid (a := 0) (k := 64 * (n + 3)) (by omega)
  rw [Nat.add_zero] at hvalid
  have hcheck := checkHash_ok u (Interface.reader d u.interface.updateRead)
    (fun _ => ()) (Nor.length_read d.update u.updateStorage.location (64 * (n + 3)))
    (fun k hk => readerUpdate_ok d hk rfl) (by omega) hvalid ⟨u.updateStorage.location + 44, 20⟩ m.hash
  rw [zeroBlocks_eq_clear (Nor.length_read _ _ _) (by decide) (by omega) (by omega), hclear, ← h.hash,
    decide_eq_true rfl] at hcheck
  rw [hsize] at hcheck
  exact ⟨_, hcheck⟩

/-- The checks of the frame lead to those of the body. -/
theorem getUpdateMetadata (h : u.Frames d m n body footer) (hmod : m.executableMetadata.length % 64 = 0)
    (hlength : m.executableMetadata.length = executableLength u.updateStorage m.encrypted) :
    u.interface.getUpdateMetadata d = if m.encrypted then u.interface.checkEncrypted d u.updateStorage m
      else u.interface.checkUnencrypted d u.updateStorage m := by
  have hstop := h.stop
  have hmagic : uint32 (Nor.read d.update u.updateStorage.location 8) 0 = updateMetadataHeaderMagic := by
    rw [h.header]
    decide
  have hversion : uint32 (Nor.read d.update u.updateStorage.location 8) 4 = updateMetadataHeaderVersion := by
    rw [h.header]
    decide
  have htrailer : uint32 (Nor.read d.update (u.updateStorage.location + (192 + 64 * n - 4)) 4) 0 =
      updateTrailerMagic := by
    rw [h.trailer]
    decide
  have hmod₁ : (u.updateStorage.location + 8) % 2 ^ 32 = u.updateStorage.location + 8 :=
    Nat.mod_eq_of_lt (by omega)
  have hmod₂ : (u.updateStorage.location + 44) % 2 ^ 32 = u.updateStorage.location + 44 :=
    Nat.mod_eq_of_lt (by omega)
  have hmod₃ : (u.updateStorage.location + (192 + 64 * n) + (2 ^ 32 - 4)) % 2 ^ 32 =
      u.updateStorage.location + (192 + 64 * n - 4) := by omega
  have hvalid₀ := h.valid (a := 0) (k := 8) (by omega)
  rw [Nat.add_zero] at hvalid₀
  have hvalid₁ := h.valid (a := 8) (k := 76) (by omega)
  have hvalid₂ := h.valid (a := 192 + 64 * n - 4) (k := 4) (by omega)
  have hrange : u.updateStorage = ⟨u.updateStorage.location, 192 + 64 * n⟩ := by
    rw [← h.size]
  obtain ⟨data, hcheck⟩ := h.checkHash
  have hupdate : u.interface.checkUpdate d u.updateStorage m =
      if m.encrypted then u.interface.checkEncrypted d u.updateStorage m
      else u.interface.checkUnencrypted d u.updateStorage m := by
    rw [← hrange] at hcheck
    simp -implicitDefEqProofs only [Interface.checkUpdate, h.size, hmod₂, hmod₃, hvalid₂, updateRead_interface,
      htrailer, hash_interface, hashDataSize, Bool.not_true, Bool.false_eq_true, if_false, ok_bind, ne_eq,
      not_true_eq_false, pure_eq]
    rw [bind_of_ok hcheck]
    simp -implicitDefEqProofs only [Bool.not_true, Bool.false_eq_true, if_false]
  simp -implicitDefEqProofs only [Interface.getUpdateMetadata, getUpdateStorage_interface, updateRead_interface,
    hvalid₀, hvalid₁, hmagic, hversion, hmod₁, h.fields, hashBlockSize, hmod, Bool.not_true, Bool.false_eq_true,
    if_false, ok_bind, ne_eq, not_true_eq_false, pure_eq, ← hlength]
  exact hupdate

end Frames

theorem frames_frame {m : UpdateMetadata} {n : Nat} {body footer : List UInt8}
    (hdigest : ∀ data, (u.digest data).length = 20) (hfits : m.Fits) (hzero : m.hash = List.replicate 20 0)
    (hbody : body.length = 64 * n) (hfooter : footer.length = 60)
    (hsize : u.updateStorage.length = 192 + 64 * n)
    (hstop : u.updateStorage.location + (192 + 64 * n) < 2 ^ 32)
    (hupdate : Nor.read d.update u.updateStorage.location (192 + 64 * n) = frame u.digest m body footer) :
    ∃ digest, u.Frames d { m with hash := digest } n body footer := by
  have hm : { m with hash := List.replicate 20 0 } = m := by
    rw [← hzero]
  exact ⟨u.digest (packMetadata m ++ (body ++ (footer ++ leBytes 4 updateTrailerMagic))),
    { fits := { hfits with hash := hdigest _ }
      lengthBody := hbody
      lengthFooter := hfooter
      size := hsize
      stop := hstop
      update := hupdate
      hash := by
        dsimp only
        rw [hm] }⟩

/-- An encrypted update at location 0, section by section. -/
structure Holds (u : Setup) (d : Board) (m : UpdateMetadata) (n : Nat)
    (encryptedMetadata encryptedExecutable footer : List UInt8) : Prop
    extends u.Frames d m (n + 2) (encryptedMetadata ++ encryptedExecutable) footer where
  encrypted : m.flags = 1
  length : m.executableMetadata.length = 64 * n
  lengthMetadata : encryptedMetadata.length = 128
  lengthExecutable : encryptedExecutable.length = 64 * n
  location : u.updateStorage.location = 0
  metadata : u.plain m.initializationVector encryptedMetadata =
    packMetadata { m with hash := List.replicate 20 0 }
  executableHash : m.executableMetadata.hash =
    u.digest (clear (u.plain m.initializationVector encryptedExecutable) (u.executable.metadataOffset + 24) 20)

namespace Holds

variable {m : UpdateMetadata} {n : Nat} {encryptedMetadata encryptedExecutable footer : List UInt8}

theorem storage (h : u.Holds d m n encryptedMetadata encryptedExecutable footer) :
    u.updateStorage = ⟨0, 320 + 64 * n⟩ := by
  have hsize := h.size
  have hrange : u.updateStorage = ⟨u.updateStorage.location, u.updateStorage.length⟩ := rfl
  rw [hrange, h.location, hsize]
  congr 1
  omega

theorem readMetadata (h : u.Holds d m n encryptedMetadata encryptedExecutable footer) :
    Nor.read d.update 128 128 = encryptedMetadata := by
  have hread := h.readBody (a := 0) (k := 128) (by omega)
  rw [h.location] at hread
  rw [hread, field_append_left _ (by rw [h.lengthMetadata]), field_all h.lengthMetadata]

theorem readExecutable (h : u.Holds d m n encryptedMetadata encryptedExecutable footer) :
    Nor.read d.update 256 (64 * n) = encryptedExecutable := by
  have hread := h.readBody (a := 128) (k := 64 * n) (by omega)
  rw [h.location] at hread
  rw [hread, field_append_right _ (by rw [h.lengthMetadata]), h.lengthMetadata, Nat.sub_self,
    field_all h.lengthExecutable]

theorem checkEncrypted (h : u.Holds d m n encryptedMetadata encryptedExecutable footer)
    (hblock : u.executable.metadataOffset % 64 = 0) (hoffset : u.executable.metadataOffset + 64 ≤ 64 * n) :
    u.interface.checkEncrypted d ⟨0, 320 + 64 * n⟩ m =
      .ok (.ok (m, u.plain m.initializationVector encryptedExecutable)) := by
  have hstop := h.stop
  have hiv := h.fits.initializationVector
  have hlocation : executableLocation ⟨0, 320 + 64 * n⟩ m = 256 := by
    rw [executableLocation, h.length]
    dsimp only
    omega
  have hmod : (256 + u.executable.metadataOffset + 24) % 2 ^ 32 = 256 + (u.executable.metadataOffset + 24) := by
    omega
  have hrange := decryptRange_ok (u := u) (d := d) hiv 128 8 (by decide)
  have hunpack : UpdateMetadata.unpack ((packMetadata { m with hash := List.replicate 20 0 }).drop 8) =
      { m with hash := List.replicate 20 0 } := by
    have hfits : UpdateMetadata.Fits { m with hash := List.replicate 20 0 } :=
      { h.fits with hash := List.length_replicate }
    have hall := unpack_packMetadata hfits []
    rwa [List.append_nil] at hall
  have hvalid : isValidSubrange ⟨0, 320 + 64 * n⟩ ⟨256, 64 * n⟩ = true :=
    isValidSubrange_of_le (Nat.zero_le _) (by dsimp only; omega) (by dsimp only; omega)
  have hcheck := checkHash_decrypted (u := u) (d := d) hiv 256 n (by omega)
    hvalid ⟨256 + (u.executable.metadataOffset + 24), 20⟩ m.executableMetadata.hash
  have hlen : (u.plain m.initializationVector encryptedExecutable).length = 64 * n := by
    have hlen : (u.plain m.initializationVector encryptedExecutable).length = 16 * (4 * n) :=
      length_plain hiv (by rw [h.lengthExecutable]; omega)
    omega
  dsimp only at hcheck
  rw [h.readExecutable, zeroBlocks_eq_clear hlen (by omega) (by omega) (by omega), ← h.executableHash,
    decide_eq_true rfl] at hcheck
  simp -implicitDefEqProofs only [Interface.checkEncrypted, hashDataSize, hlocation, h.length, hmod,
    getDecryption_interface, decryptInit_interface, getExecutable_interface, decryptFinalize_interface,
    hash_interface, ok_bind, pure_eq]
  rw [bind_of_ok hrange, h.readMetadata, h.metadata, hunpack, if_neg (not_not_intro rfl),
    bind_of_ok hcheck]
  rfl

theorem getUpdateMetadata (h : u.Holds d m n encryptedMetadata encryptedExecutable footer)
    (hblock : u.executable.metadataOffset % 64 = 0) (hoffset : u.executable.metadataOffset + 64 ≤ 64 * n) :
    u.interface.getUpdateMetadata d =
      .ok (.ok (m, u.plain m.initializationVector encryptedExecutable)) := by
  have hstop := h.stop
  have hencrypted : m.encrypted = true := by
    rw [UpdateMetadata.encrypted, h.encrypted]
    decide
  have hlength : m.executableMetadata.length = executableLength u.updateStorage m.encrypted := by
    rw [hencrypted, executableLength, if_pos rfl, h.length, h.size]
    omega
  have hmod : m.executableMetadata.length % 64 = 0 := by
    rw [h.length]
    exact Nat.mul_mod_right 64 n
  rw [h.toFrames.getUpdateMetadata hmod hlength, hencrypted, if_pos rfl, h.storage]
  exact h.checkEncrypted hblock hoffset

end Holds

/-! ## From the packager to the flash -/

theorem length_encryptData {iv data : List UInt8} {n : Nat} (hiv : iv.length = 16)
    (hdata : data.length = 16 * n) :
    (Package.encryptData u.cipher u.key iv data).length = 16 * n := by
  have hn : data.length / 16 = n := by omega
  rw [Package.encryptData, hn]
  exact Cbc.length_encrypt n hiv hdata

theorem plain_encryptData {iv data : List UInt8} {n : Nat} (hiv : iv.length = 16)
    (hdata : data.length = 16 * n) : u.plain iv (Package.encryptData u.cipher u.key iv data) = data := by
  have hn : data.length / 16 = n := by omega
  have hn' : (Package.encryptData u.cipher u.key iv data).length / 16 = n := by
    rw [length_encryptData hiv hdata]
    omega
  rw [plain, hn', Package.encryptData, hn]
  exact Cbc.decrypt_encrypt n hiv hdata

/-- What `package_update` builds of the metadata, its encryption and an encrypted executable. -/
theorem holds_packageUpdate {random : Random} {m : UpdateMetadata} {executable : List UInt8} {n : Nat}
    (hdigest : ∀ data, (u.digest data).length = 20) (hfits : m.Fits) (hencrypted : m.flags = 1)
    (hzero : m.hash = List.replicate 20 0) (hlen : executable.length = 64 * n)
    (hlength : m.executableMetadata.length = 64 * n)
    (hhash : m.executableMetadata.hash = u.digest (clear executable (u.executable.metadataOffset + 24) 20))
    (hstorage : u.updateStorage = ⟨0, 320 + 64 * n⟩) (hstop : 320 + 64 * n < 2 ^ 32)
    (hupdate : Nor.read d.update 0 (320 + 64 * n) = Package.packageUpdate u.digest random (packMetadata m ++
      Package.encryptData u.cipher u.key m.initializationVector (packMetadata m) ++
      Package.encryptData u.cipher u.key m.initializationVector executable)) :
    ∃ digest, u.Holds d { m with hash := digest } n
      (Package.encryptData u.cipher u.key m.initializationVector (packMetadata m))
      (Package.encryptData u.cipher u.key m.initializationVector executable) (random.bytes 60) := by
  have hiv := hfits.initializationVector
  have hm : { m with hash := List.replicate 20 0 } = m := by
    rw [← hzero]
  have hencryptedMetadata := length_encryptData (u := u) (n := 8) hiv hfits.length_packMetadata
  have hencryptedExecutable := length_encryptData (u := u) (n := 4 * n) hiv
    (by omega : executable.length = 16 * (4 * n))
  have hsize : 192 + 64 * (n + 2) = 320 + 64 * n := by omega
  have hbody : (Package.encryptData u.cipher u.key m.initializationVector (packMetadata m) ++
      Package.encryptData u.cipher u.key m.initializationVector executable).length = 64 * (n + 2) := by
    rw [List.length_append]
    omega
  rw [List.append_assoc, Package.packageUpdate_eq hdigest hfits] at hupdate
  obtain ⟨digest, hframes⟩ := frames_frame (n := n + 2) (d := d) hdigest hfits hzero
    hbody (random.length_bytes 60) (by rw [hstorage, hsize])
    (by rw [hstorage, hsize, Nat.zero_add]; exact hstop) (by rw [hstorage, hsize]; exact hupdate)
  exact ⟨digest,
    { hframes with
      encrypted := hencrypted
      length := hlength
      lengthMetadata := hencryptedMetadata
      lengthExecutable := by omega
      location := by rw [hstorage]
      metadata := by
        dsimp only
        rw [hm]
        exact plain_encryptData (n := 8) hiv hfits.length_packMetadata
      executableHash := by
        dsimp only
        rw [plain_encryptData (n := 4 * n) hiv (by omega), hhash] }⟩

/-- The installation of an update of which the executable has the sections of one. -/
theorem Holds.install {m : UpdateMetadata} {n page : Nat}
    {encryptedMetadata encryptedExecutable footer before after : List UInt8} {version : Version}
    (h : u.Holds d m n encryptedMetadata encryptedExecutable footer)
    (hexecutable : u.plain m.initializationVector encryptedExecutable =
      sections before after version (64 * n) m.executableMetadata.hash)
    (hoffset : before.length = u.executable.metadataOffset) (hblock : u.executable.metadataOffset % 64 = 0)
    (hfits : version.Fits) (hstart : u.executableStorage.location ≤ u.executable.location)
    (hfit : u.executable.location + 64 * n ≤ u.executableStorage.location + u.executableStorage.length)
    (hstop : u.executableStorage.location + u.executableStorage.length < 2 ^ 32)
    (hpages : u.ErasesPages page u.executable.location (64 * n)) :
    ∃ d', u.interface.install d m = .ok d' ∧
      Nor.read d'.flash u.executable.location (64 * n) =
        sections before after version (64 * n) m.executableMetadata.hash ∧
      u.interface.getExecutableMetadata d' = .ok (.ok ⟨version, 64 * n, m.executableMetadata.hash⟩) := by
  have hmin : 64 * n = 16 * (4 * n) := by omega
  have hstop' := h.stop
  have hiv := h.fits.initializationVector
  have hclear : clear (sections before after version (64 * n) m.executableMetadata.hash)
      (u.executable.metadataOffset + 24) 20 = sections before after version (64 * n) (List.replicate 20 0) :=
    clear_middle _ (by simp [hoffset]) h.fits.executableHash
  have hhash := h.executableHash
  rw [hexecutable, hclear] at hhash
  have hlen : (sections before after version (64 * n) m.executableMetadata.hash).length = 64 * n := by
    rw [← hexecutable, length_plain (n := 4 * n) hiv (by rw [h.lengthExecutable]; omega)]
    omega
  have hlocation : executableLocation u.updateStorage m = 256 := by
    rw [h.storage, executableLocation, h.length]
    dsimp only
    omega
  rw [hmin] at hpages
  obtain ⟨d', hinstall, hread⟩ := install_pages (d := d) hiv (h.length.trans hmin) hpages
    (by rw [hlocation]; omega) (by omega)
  rw [hlocation, ← hmin, h.readExecutable, hexecutable] at hread
  exact ⟨d', hinstall, hread, getExecutableMetadata_sections hoffset hblock hfits h.fits.executableHash hlen
    (Nat.mul_mod_right 64 n) hstart hfit hstop hhash hread⟩

/-- A packaged update is accepted, and its installation gives the packaged executable. -/
theorem package_valid {padding footer : Random} {iv image executable update : List UInt8} {page : Nat}
    (hdigest : ∀ data, (u.digest data).length = 20) (hiv : iv.length = 16)
    (hblock : u.executable.metadataOffset % 64 = 0)
    (hpackage : Package.package u.cipher u.digest u.key iv padding footer image u.executable.metadataOffset =
      some (executable, update))
    (hstorage : u.updateStorage = ⟨0, update.length⟩) (hsize : update.length < 2 ^ 32)
    (hupdate : Nor.read d.update 0 update.length = update)
    (hstart : u.executableStorage.location ≤ u.executable.location)
    (hfit : u.executable.location + executable.length ≤
      u.executableStorage.location + u.executableStorage.length)
    (hstop : u.executableStorage.location + u.executableStorage.length < 2 ^ 32)
    (hpages : u.ErasesPages page u.executable.location executable.length) :
    u.executable.metadataOffset + 64 ≤ executable.length ∧
      ∃ m d', m.flags = 1 ∧ u.interface.getUpdateMetadata d = .ok (.ok (m, executable)) ∧
        u.interface.install d m = .ok d' ∧
        Nor.read d'.flash u.executable.location executable.length = executable ∧
        u.interface.getExecutableMetadata d' = .ok (.ok m.executableMetadata) := by
  obtain ⟨version, hversion, hpackage⟩ := Option.bind_eq_some_iff.mp hpackage
  obtain ⟨-, hfits, -⟩ := Package.getExecutableMetadata_some hversion
  obtain ⟨before, after, length, hbefore, hmod, hlen, hexecutable⟩ :=
    Package.packageExecutable_eq hdigest padding hversion
  obtain ⟨n, rfl⟩ : ∃ n, length = 64 * n := ⟨length / 64, by omega⟩
  generalize hhash : u.digest (sections before after version (64 * n) (List.replicate 20 0)) = hash
    at hexecutable
  have hlenHash : hash.length = 20 := hhash ▸ hdigest _
  rw [length_sections, List.length_replicate, hbefore] at hlen
  have hlenExecutable : (sections before after version (64 * n) hash).length = 64 * n := by
    rw [length_sections, hlenHash, hbefore, hlen]
  have hclear : clear (sections before after version (64 * n) hash) (u.executable.metadataOffset + 24) 20 =
      sections before after version (64 * n) (List.replicate 20 0) :=
    clear_middle _ (by simp [hbefore]) hlenHash
  simp only [hexecutable, Option.pure_def, Option.some.injEq, Prod.mk.injEq] at hpackage
  obtain ⟨rfl, rfl⟩ := hpackage
  rw [hlenExecutable] at hfit hpages hstorage hsize hupdate ⊢
  have hlt : 64 * n < 2 ^ 32 := by omega
  let m : UpdateMetadata := ⟨⟨version, 64 * n, hash⟩, List.replicate 20 0, 1, iv⟩
  have hfitsMetadata : m.Fits := ⟨hfits, hlt, hlenHash, List.length_replicate, by simp [m], hiv⟩
  have hlenUpdate : (Package.packageUpdate u.digest footer (packMetadata m ++
      Package.encryptData u.cipher u.key iv (packMetadata m) ++
      Package.encryptData u.cipher u.key iv (sections before after version (64 * n) hash))).length =
        320 + 64 * n := by
    rw [Package.length_packageUpdate hdigest]
    all_goals
      simp only [List.length_append, hfitsMetadata.length_packMetadata,
        length_encryptData (n := 8) hiv hfitsMetadata.length_packMetadata,
        length_encryptData (u := u) (n := 4 * n) hiv
          (by omega : (sections before after version (64 * n) hash).length = _)]
      omega
  rw [hlenUpdate] at hstorage hsize hupdate
  obtain ⟨digest, hholds⟩ := holds_packageUpdate hdigest hfitsMetadata rfl rfl hlenExecutable rfl
    (hhash.symm.trans (congrArg u.digest hclear.symm)) hstorage hsize hupdate
  have hplain := plain_encryptData (u := u) (n := 4 * n) hiv
    (by omega : (sections before after version (64 * n) hash).length = _)
  obtain ⟨d', hinstall, hread, hvalid⟩ := hholds.install hplain hbefore hblock hfits hstart hfit hstop hpages
  have hgetUpdate := hholds.getUpdateMetadata hblock (by omega)
  rw [hplain] at hgetUpdate
  exact ⟨by omega, _, d', rfl, hgetUpdate, hinstall, hread, hvalid⟩

/-- The magic or the version where the header of the executable should be is not that of a header. -/
def NoHeader (u : Setup) (d : Board) : Prop :=
  let header := Nor.read d.flash (u.executable.location + u.executable.metadataOffset) 8
  uint32 header 0 ≠ executableMetadataHeaderMagic ∨ uint32 header 4 ≠ executableMetadataHeaderVersion

theorem getExecutableMetadata_noHeader (h : u.NoHeader d)
    (hstorage : u.executableStorage.location ≤ u.executable.location)
    (hfit : u.executable.location + u.executable.metadataOffset + 8 ≤
      u.executableStorage.location + u.executableStorage.length)
    (hstop : u.executableStorage.location + u.executableStorage.length < 2 ^ 32) :
    ∃ e, u.interface.getExecutableMetadata d = .ok (.error e) := by
  have hmod : (u.executable.location + u.executable.metadataOffset) % 2 ^ 32 =
      u.executable.location + u.executable.metadataOffset := Nat.mod_eq_of_lt (by omega)
  have hvalid : isValidSubrange u.executableStorage
      ⟨u.executable.location + u.executable.metadataOffset, 8⟩ = true :=
    isValidSubrange_of_le (by omega) hfit hstop
  simp -implicitDefEqProofs only [Interface.getExecutableMetadata, getExecutableStorage_interface,
    getExecutable_interface, executableRead_interface, ok_bind, hmod, hvalid, Bool.not_true, Bool.false_eq_true,
    if_false, pure_eq]
  by_cases hmagic : uint32 (Nor.read d.flash (u.executable.location + u.executable.metadataOffset) 8) 0 =
      executableMetadataHeaderMagic
  · rcases h with h | h
    · exact absurd hmagic h
    · exact ⟨.headerVersion, by rw [if_neg (not_not_intro hmagic), if_pos h]⟩
  · exact ⟨.headerMagic, by rw [if_pos hmagic]⟩

/-- Every update that the packager builds is installed where there is no executable. -/
theorem installs_package {padding footer : Random} {iv image executable update : List UInt8} {page : Nat}
    (hdigest : ∀ data, (u.digest data).length = 20) (hiv : iv.length = 16)
    (hblock : u.executable.metadataOffset % 64 = 0)
    (hpackage : Package.package u.cipher u.digest u.key iv padding footer image u.executable.metadataOffset =
      some (executable, update))
    (hstorage : u.updateStorage = ⟨0, update.length⟩) (hsize : update.length < 2 ^ 32)
    (hupdate : Nor.read d.update 0 update.length = update)
    (hstart : u.executableStorage.location ≤ u.executable.location)
    (hfit : u.executable.location + executable.length ≤
      u.executableStorage.location + u.executableStorage.length)
    (hstop : u.executableStorage.location + u.executableStorage.length < 2 ^ 32)
    (hpages : u.ErasesPages page u.executable.location executable.length) (hheader : u.NoHeader d) :
    ∃ d', u.interface.update d = .ok (.ok (), d') ∧
      Nor.read d'.flash u.executable.location executable.length = executable := by
  obtain ⟨hle, m, d', -, hgetUpdate, hinstall, hread, hvalid⟩ :=
    package_valid hdigest hiv hblock hpackage hstorage hsize hupdate hstart hfit hstop hpages
  obtain ⟨e, hgetExecutable⟩ := getExecutableMetadata_noHeader hheader hstart (by omega) hstop
  have hchoose := u.interface.choose_eq d hgetExecutable hgetUpdate
  exact ⟨d', u.interface.update_install d hchoose hinstall hvalid, hread⟩

end Setup

/-! ## A sample -/

namespace Sample

/-- A sum takes the place of SHA-1, and an addition of the key that of AES. -/
def setup : Setup where
  executableStorage := ⟨4096, 1024⟩
  executable := ⟨4096, 64⟩
  updateStorage := ⟨0, 512⟩
  key := [1]
  digest data := List.replicate 20 data.sum
  cipher :=
    { encrypt := fun k block => block.map (· + k.headD 0)
      decrypt := fun k block => block.map (· - k.headD 0)
      length_encrypt := fun _ _ h => by simp [h]
      length_decrypt := fun _ _ h => by simp [h]
      decrypt_encrypt := fun k block _ => by simp [Function.comp_def] }
  erase flash location _ :=
    ((location - location % 64 + 64) % 2 ^ 32, Nor.erase flash (location - location % 64) 64)

def zeros : Random := ⟨fun n => List.replicate n 0, fun _ => List.length_replicate⟩

def initializationVector : List UInt8 := List.replicate 16 5

/-- An image before it is packaged. -/
def image (version : Version) : List UInt8 :=
  List.replicate 64 7 ++ packHeader executableMetadataHeaderMagic executableMetadataHeaderVersion version 0 ++
    List.replicate 40 0 ++ [1, 2, 3]

@[irreducible] def package (version : Version) : List UInt8 × List UInt8 :=
  (Package.package setup.cipher setup.digest setup.key initializationVector zeros zeros (image version) 64).getD
    ([], [])

/-- A package in the update storage, and a flash. -/
def board (version : Version) (flash : Nor.Image) : Board :=
  ⟨flash, store (fun _ => 0xff) 0 (package version).2, []⟩

theorem read_board (version : Version) (flash : Nor.Image) :
    Nor.read (board version flash).update 0 (package version).2.length = (package version).2 :=
  read_store_self (fun _ => 0xff) 0 _

theorem package_eq : Package.package setup.cipher setup.digest setup.key initializationVector zeros zeros
    (image ⟨1, 2, 3⟩) 64 = some ((package ⟨1, 2, 3⟩).1, (package ⟨1, 2, 3⟩).2) := by decide +kernel

theorem length_package : (package ⟨1, 2, 3⟩).1.length = 192 ∧ (package ⟨1, 2, 3⟩).2.length = 512 := by
  decide +kernel

theorem erasesPages (length : Nat) (h : length ≤ 1024) : setup.ErasesPages 64 4096 length where
  pos := by decide
  aligned := by decide
  erase flash location hle hlt :=
    ⟨1, Nat.one_pos, by omega, rfl⟩

theorem package_valid (flash : Nor.Image) :
    64 + 64 ≤ (package ⟨1, 2, 3⟩).1.length ∧ ∃ m d', m.flags = 1 ∧
      setup.interface.getUpdateMetadata (board ⟨1, 2, 3⟩ flash) = .ok (.ok (m, (package ⟨1, 2, 3⟩).1)) ∧
        setup.interface.install (board ⟨1, 2, 3⟩ flash) m = .ok d' ∧
        Nor.read d'.flash 4096 (package ⟨1, 2, 3⟩).1.length = (package ⟨1, 2, 3⟩).1 ∧
        setup.interface.getExecutableMetadata d' = .ok (.ok m.executableMetadata) := by
  have hlen := length_package
  have hpages := erasesPages 192 (by decide)
  rw [← hlen.1] at hpages
  refine Setup.package_valid (u := setup) (fun _ => List.length_replicate) (by decide) (by decide)
    package_eq ?_ ?_ (read_board _ _) (by decide) ?_ (by decide) hpages
  · rw [hlen.2]
    rfl
  · rw [hlen.2]
    decide
  · rw [hlen.1]
    decide

end Sample

/-- The packaged image is installed on an erased flash. -/
theorem installs_package_sample : ∃ d', Sample.setup.interface.update (Sample.board ⟨1, 2, 3⟩ fun _ => 0xff) =
      .ok (.ok (), d') ∧
    Nor.read d'.flash Sample.setup.executable.location (Sample.package ⟨1, 2, 3⟩).1.length =
      (Sample.package ⟨1, 2, 3⟩).1 := by
  have hlen := Sample.length_package
  have hpages := Sample.erasesPages 192 (by decide)
  rw [← hlen.1] at hpages
  refine Setup.installs_package (fun _ => List.length_replicate) (by decide) (by decide)
    Sample.package_eq ?_ ?_ (Sample.read_board _ _) (by decide) ?_ (by decide) hpages (Or.inl (by decide))
  · rw [hlen.2]
    rfl
  · rw [hlen.2]
    decide
  · rw [hlen.1]
    decide

end Boot
end Firefly
