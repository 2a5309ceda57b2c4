import Firefly.Boot.Verified

/-!
# Firefly.Boot.SelfHeal

The update after an installation that was interrupted: the executable flash may hold anything. With
callbacks that do not fail the check of the executable ends with an issue or finds it valid, and the
update then runs it or installs, except for the one content that ends the check with an error: a header
that is right with a length that is not a multiple of a block.
-/

namespace Firefly
namespace Boot

open Bytes Result

variable {Δ H C ρ : Type}

/-- A hash that never fails. -/
structure Hash.Total (hash : Hash H) : Prop where
  init : ∃ h, hash.init = .ok h
  update : ∀ h data, ∃ h', hash.update h data = .ok h'
  finalize : ∀ h, ∃ digest, hash.finalize h = .ok digest

theorem checkHash_total {hash : Hash H} (hhash : hash.Total)
    (read : ρ → Nat → Nat → Except Error (List UInt8 × ρ)) (hread : ∀ r a n, ∃ x, read r a n = .ok x)
    {storage range : Range} (hvalid : isValidSubrange storage range = true) (r : ρ) (zero : Range)
    (expected : List UInt8) : ∃ x, checkHash hash read r storage range zero expected = .ok x := by
  obtain ⟨h, hinit⟩ := hhash.init
  have hblock : ∀ location length s, ∃ s', checkHashBlock hash read zero location length s = .ok s' := by
    intro location length s
    obtain ⟨x, hx⟩ := hread s.2.2 location length
    rw [checkHashBlock, bind_of_ok hx]
    dsimp only
    obtain ⟨h', hh'⟩ := hhash.update s.1 (if location ≤ zero.location ∧
      (zero.location + zero.length) % 2 ^ 32 ≤ location + length then
        clear x.1 (zero.location - location) zero.length else x.1)
    rw [bind_of_ok hh']
    exact ⟨_, rfl⟩
  obtain ⟨s, hs⟩ : ∃ s, Blocks.run hashBlockSize (checkHashBlock hash read zero) range.location
      ((range.location + range.length) % 2 ^ 32) (h, [], r) = .ok s := by
    rcases Nat.le_total range.location ((range.location + range.length) % 2 ^ 32) with hle | hle
    · obtain ⟨s, hs, -⟩ := Blocks.run_total (fun _ _ => True) (by decide : 0 < hashBlockSize)
        (fun location s _ _ => by
          obtain ⟨s', hs'⟩ := hblock location (min ((range.location + range.length) % 2 ^ 32 - location)
            hashBlockSize) s
          exact ⟨s', hs', trivial⟩) hle trivial
      exact ⟨s, hs⟩
    · exact ⟨_, Blocks.run_of_le hle⟩
  obtain ⟨digest, hdigest⟩ := hhash.finalize s.1
  rw [checkHash, hvalid, Bool.not_true, if_neg Bool.false_ne_true, bind_of_ok hinit, bind_of_ok hs]
  dsimp only
  rw [bind_of_ok hdigest]
  exact ⟨_, rfl⟩

namespace Interface

variable (i : Interface Δ H C) (d : Δ)

/-- The header is that of an executable, and its length is not a multiple of a block. -/
def Misaligned (executable : InfoExecutable) : Prop :=
  ∃ header metadata,
    i.executableRead d ((executable.location + executable.metadataOffset) % 2 ^ 32) 8 = .ok header ∧
      uint32 header 0 = executableMetadataHeaderMagic ∧ uint32 header 4 = executableMetadataHeaderVersion ∧
        i.executableRead d ((executable.location + executable.metadataOffset + 8) % 2 ^ 32) 36 = .ok metadata ∧
          (ExecutableMetadata.unpack metadata).length % hashBlockSize ≠ 0

variable {i d}

/-- What a valid executable went through. -/
theorem getExecutableMetadata_inv {storage : Range} {executable : InfoExecutable} {m : ExecutableMetadata}
    (hstorage : (i.info d).getExecutableStorage = .ok storage)
    (hexecutable : (i.info d).getExecutable = .ok executable)
    (h : i.getExecutableMetadata d = .ok (.ok m)) :
    isValidSubrange storage ⟨(executable.location + executable.metadataOffset) % 2 ^ 32, 8⟩ = true ∧
      isValidSubrange storage ⟨(executable.location + executable.metadataOffset + 8) % 2 ^ 32, 36⟩ = true ∧
    ∃ bytes trailer data,
      i.executableRead d ((executable.location + executable.metadataOffset + 8) % 2 ^ 32) 36 = .ok bytes ∧
      m = .unpack bytes ∧ m.length % hashBlockSize = 0 ∧
      i.executableRead d ((executable.location + m.length + (2 ^ 32 - 4)) % 2 ^ 32) 4 = .ok trailer ∧
      uint32 trailer 0 = executableTrailerMagic ∧
      checkHash (i.hash d) (reader d i.executableRead) () storage ⟨executable.location, m.length⟩
        ⟨(executable.location + executable.metadataOffset + 24) % 2 ^ 32, hashDataSize⟩ m.hash =
          .ok (true, data, ()) := by
  rw [getExecutableMetadata, hstorage, ok_bind, hexecutable, ok_bind] at h
  dsimp only at h
  split at h
  · cases h
  rename_i hheader
  rw [Bool.not_eq_true, Bool.not_eq_false'] at hheader
  obtain ⟨header, -, h⟩ := bind_eq_ok h
  split at h
  · cases h
  split at h
  · cases h
  split at h
  · cases h
  rename_i hmetadata
  rw [Bool.not_eq_true, Bool.not_eq_false'] at hmetadata
  obtain ⟨bytes, hbytes, h⟩ := bind_eq_ok h
  refine ⟨hheader, hmetadata, ?_⟩
  rw [checkExecutable] at h
  split at h
  · cases h
  rename_i hmod
  dsimp only at h
  split at h
  · cases h
  obtain ⟨trailer, htrailer, h⟩ := bind_eq_ok h
  split at h
  · cases h
  rename_i hmagic
  obtain ⟨result, hresult, h⟩ := bind_eq_ok h
  obtain ⟨valid, data, r⟩ := result
  cases valid with
  | false => cases h
  | true =>
    cases h
    exact ⟨bytes, trailer, data, hbytes, rfl, not_not.mp hmod, htrailer, not_not.mp hmagic, hresult⟩

/-- A valid executable lies in its storage. -/
theorem valid_subrange {storage : Range} {executable : InfoExecutable} {m : ExecutableMetadata}
    (hstorage : (i.info d).getExecutableStorage = .ok storage)
    (hexecutable : (i.info d).getExecutable = .ok executable)
    (h : i.getExecutableMetadata d = .ok (.ok m)) :
    isValidSubrange storage ⟨executable.location, m.length⟩ = true := by
  obtain ⟨-, -, -, -, data, -, -, -, -, -, hcheck⟩ := getExecutableMetadata_inv hstorage hexecutable h
  exact (checkHash_inv hcheck).1

theorem checkExecutable_total {storage : Range} {executable : InfoExecutable} {metadata : ExecutableMetadata}
    (hread : ∀ a n, ∃ data, i.executableRead d a n = .ok data) (hhash : (i.hash d).Total)
    (hstart : storage.location ≤ executable.location) (hlen : metadata.length % hashBlockSize = 0) :
    ∃ r, i.checkExecutable d storage executable metadata = .ok r := by
  rw [checkExecutable, if_neg (not_not_intro hlen)]
  dsimp only
  by_cases htrailer : isValidSubrange storage
      ⟨(executable.location + metadata.length + (2 ^ 32 - 4)) % 2 ^ 32, 4⟩ = true
  · -- the trailer ends where the executable does
    have hvalid : isValidSubrange storage ⟨executable.location, metadata.length⟩ = true := by
      rw [isValidSubrange_iff] at htrailer ⊢
      refine ⟨hstart, ?_⟩
      have hend : ((executable.location + metadata.length + (2 ^ 32 - 4)) % 2 ^ 32 + 4) % 2 ^ 32 =
          (executable.location + metadata.length) % 2 ^ 32 := by omega
      rw [← hend]
      exact htrailer.2
    obtain ⟨trailer, hreadTrailer⟩ := hread
      ((executable.location + metadata.length + (2 ^ 32 - 4)) % 2 ^ 32) 4
    rw [htrailer, Bool.not_true, if_neg Bool.false_ne_true, bind_of_ok hreadTrailer]
    by_cases hmagic : uint32 trailer 0 = executableTrailerMagic
    · obtain ⟨x, hcheck⟩ := checkHash_total hhash (reader d i.executableRead)
        (fun _ a n => by
          obtain ⟨data, hdata⟩ := hread a n
          exact ⟨(data, ()), by rw [reader, hdata]; rfl⟩) hvalid ()
        ⟨(executable.location + executable.metadataOffset + 24) % 2 ^ 32, hashDataSize⟩ metadata.hash
      rw [if_neg (not_not_intro hmagic), bind_of_ok hcheck]
      split
      · exact ⟨_, rfl⟩
      · exact ⟨_, rfl⟩
    · rw [if_pos hmagic]
      exact ⟨_, rfl⟩
  · rw [Bool.not_eq_true] at htrailer
    rw [htrailer]
    exact ⟨_, rfl⟩

/-- The check ends with a result, except for the one content. -/
theorem getExecutableMetadata_total {storage : Range} {executable : InfoExecutable}
    (hstorage : (i.info d).getExecutableStorage = .ok storage)
    (hexecutable : (i.info d).getExecutable = .ok executable)
    (hread : ∀ a n, ∃ data, i.executableRead d a n = .ok data) (hhash : (i.hash d).Total)
    (hheader : isValidSubrange storage
      ⟨(executable.location + executable.metadataOffset) % 2 ^ 32, 8⟩ = true)
    (hmetadata : isValidSubrange storage
      ⟨(executable.location + executable.metadataOffset + 8) % 2 ^ 32, 36⟩ = true)
    (hstart : storage.location ≤ executable.location) :
    (∃ r, i.getExecutableMetadata d = .ok r) ↔ ¬ i.Misaligned d executable := by
  obtain ⟨header, hreadHeader⟩ := hread ((executable.location + executable.metadataOffset) % 2 ^ 32) 8
  obtain ⟨metadata, hreadMetadata⟩ := hread ((executable.location + executable.metadataOffset + 8) % 2 ^ 32) 36
  have hmisaligned : i.Misaligned d executable ↔ uint32 header 0 = executableMetadataHeaderMagic ∧
      uint32 header 4 = executableMetadataHeaderVersion ∧
        (ExecutableMetadata.unpack metadata).length % hashBlockSize ≠ 0 := by
    constructor
    · rintro ⟨header', metadata', hheader', hmagic, hversion, hmetadata', hlen⟩
      cases hreadHeader.symm.trans hheader'
      cases hreadMetadata.symm.trans hmetadata'
      exact ⟨hmagic, hversion, hlen⟩
    · rintro ⟨hmagic, hversion, hlen⟩
      exact ⟨header, metadata, hreadHeader, hmagic, hversion, hreadMetadata, hlen⟩
  rw [hmisaligned, getExecutableMetadata, hstorage, ok_bind, hexecutable, ok_bind]
  dsimp only
  rw [hheader, hmetadata, Bool.not_true, if_neg Bool.false_ne_true, bind_of_ok hreadHeader]
  by_cases hmagic : uint32 header 0 = executableMetadataHeaderMagic
  · by_cases hversion : uint32 header 4 = executableMetadataHeaderVersion
    · rw [if_neg (not_not_intro hmagic), if_neg (not_not_intro hversion), if_neg Bool.false_ne_true,
        bind_of_ok hreadMetadata]
      by_cases hlen : (ExecutableMetadata.unpack metadata).length % hashBlockSize = 0
      · refine ⟨fun _ h => h.2.2 hlen, fun _ => ?_⟩
        exact checkExecutable_total hread hhash hstart hlen
      · rw [checkExecutable, if_pos hlen]
        constructor
        · rintro ⟨r, hr⟩
          cases hr
        · intro h
          exact absurd ⟨hmagic, hversion, hlen⟩ h
    · rw [if_neg (not_not_intro hmagic), if_pos hversion]
      exact ⟨fun _ h => hversion h.2.1, fun _ => ⟨_, rfl⟩⟩
  · rw [if_pos hmagic]
    exact ⟨fun _ h => hmagic h.1, fun _ => ⟨_, rfl⟩⟩

theorem getAction_default_valid (executable : Except ExecutableIssue ExecutableMetadata) (m : UpdateMetadata) :
    getAction .default executable (.ok m) = .run ∨ getAction .default executable (.ok m) = .install := by
  cases executable with
  | error e => exact Or.inr rfl
  | ok executable =>
    rw [getAction]
    split
    · exact Or.inl rfl
    · split
      · exact Or.inr rfl
      · exact Or.inl rfl

/-- Whatever the flash holds, the update ends valid if and only if the flash does not have the one
content, where `m` is the valid update and `d'` the device on which it is installed. -/
theorem selfHeals {storage : Range} {executable : InfoExecutable} {m : UpdateMetadata} {data : List UInt8}
    {d' : Δ} {installed : ExecutableMetadata} (haction : i.action = .default)
    (hstorage : (i.info d).getExecutableStorage = .ok storage)
    (hexecutable : (i.info d).getExecutable = .ok executable) (hinfo : i.info d' = i.info d)
    (hread : ∀ a n, ∃ data, i.executableRead d a n = .ok data) (hhash : (i.hash d).Total)
    (hheader : isValidSubrange storage
      ⟨(executable.location + executable.metadataOffset) % 2 ^ 32, 8⟩ = true)
    (hmetadata : isValidSubrange storage
      ⟨(executable.location + executable.metadataOffset + 8) % 2 ^ 32, 36⟩ = true)
    (hupdate : i.getUpdateMetadata d = .ok (.ok (m, data))) (hinstall : i.install d m = .ok d')
    (hvalid : i.getExecutableMetadata d' = .ok (.ok installed)) :
    ((∃ r, i.getExecutableMetadata d = .ok r) ∧ ∃ d'', i.update d = .ok (.ok (), d'')) ↔
      ¬ i.Misaligned d executable := by
  have hstart := (isValidSubrange_iff.mp (valid_subrange (hinfo ▸ hstorage) (hinfo ▸ hexecutable) hvalid)).1
  rw [← getExecutableMetadata_total hstorage hexecutable hread hhash hheader hmetadata hstart]
  refine ⟨And.left, fun ⟨r, hr⟩ => ⟨⟨r, hr⟩, ?_⟩⟩
  have hchoose : i.choose d = .ok (getAction .default r (.ok m), .ok (m, data)) := by
    rw [i.choose_eq d hr hupdate, haction]
    rfl
  rcases getAction_default_valid r m with hrun | hinst
  · rw [hrun] at hchoose
    exact ⟨d, i.update_run d hchoose⟩
  · rw [hinst] at hchoose
    exact ⟨d', i.update_install d hchoose hinstall hvalid⟩

end Interface

/-! ## A sample -/

namespace Sample

/-- A flash with the header of an executable of one byte. -/
def interrupted : Nor.Image :=
  store (fun _ => 0xff) (4096 + 64) (packHeader executableMetadataHeaderMagic executableMetadataHeaderVersion
    ⟨1, 2, 3⟩ 1)

end Sample

/-- On an erased flash the update heals. -/
theorem selfHeals_sample : (∃ r, Sample.setup.interface.getExecutableMetadata
      (Sample.board ⟨1, 2, 3⟩ fun _ => 0xff) = .ok r) ∧
    ∃ d'', Sample.setup.interface.update (Sample.board ⟨1, 2, 3⟩ fun _ => 0xff) = .ok (.ok (), d'') := by
  obtain ⟨-, m, d', -, hgetUpdate, hinstall, -, hvalid⟩ := Sample.package_valid fun _ => 0xff
  refine (Interface.selfHeals (i := Sample.setup.interface) (d := Sample.board ⟨1, 2, 3⟩ fun _ => 0xff)
    rfl rfl rfl ?_ ?_ ?_ (by decide) (by decide) hgetUpdate hinstall hvalid).mpr ?_
  · rfl
  · exact fun a n => ⟨_, rfl⟩
  · exact ⟨⟨_, rfl⟩, fun _ _ => ⟨_, rfl⟩, fun _ => ⟨_, rfl⟩⟩
  · rintro ⟨header, -, hheader, hmagic, -⟩
    cases hheader
    exact absurd hmagic (by decide)

/-- With the one content the check fails, although the update is valid and could be installed. -/
theorem not_selfHeals : ∃ m data d' installed,
    Sample.setup.interface.getUpdateMetadata (Sample.board ⟨1, 2, 3⟩ Sample.interrupted) = .ok (.ok (m, data)) ∧
    Sample.setup.interface.install (Sample.board ⟨1, 2, 3⟩ Sample.interrupted) m = .ok d' ∧
    Sample.setup.interface.getExecutableMetadata d' = .ok (.ok installed) ∧
    ¬ ∃ d'', Sample.setup.interface.update (Sample.board ⟨1, 2, 3⟩ Sample.interrupted) = .ok (.ok (), d'') := by
  obtain ⟨-, m, d', -, hgetUpdate, hinstall, -, hvalid⟩ := Sample.package_valid Sample.interrupted
  refine ⟨m, _, d', _, hgetUpdate, hinstall, hvalid, ?_⟩
  have hfails : Sample.setup.interface.getExecutableMetadata (Sample.board ⟨1, 2, 3⟩ Sample.interrupted) =
      .error none := by decide +kernel
  rintro ⟨d'', h⟩
  rw [Interface.update, Interface.choose, hfails] at h
  cases h

end Boot
end Firefly
