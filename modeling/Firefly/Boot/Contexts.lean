import Firefly.Boot.Relocation

/-!
# Firefly.Boot.Contexts

The contexts of the hash and of the decryption. The state that goes from one callback to the next is a
pair here: the globals, and the context that the code passes. Callbacks may keep what they need in the
one (`Interface.keepsGlobals`, as the default ones) or in the other (`Interface.keepsContexts`).

Every call of the code passes the context that it initialized, except where the executable of an encrypted
update is read: it initializes a context of its own, and passes the one of
`fd_boot_read_and_decrypt_context_t`, which is zeroed.
-/

namespace Firefly
namespace Boot

open Bytes Result

variable {Δ H H' C C' Γ K L ρ ρ' : Type}

/-! ## Callbacks -/

/-- The globals are the state, and the context is not used. -/
def Hash.keepsGlobals (hash : Hash H) (context : K) : Hash (H × K) where
  init := do
    let h ← hash.init
    return (h, context)
  update s data := do
    let h ← hash.update s.1 data
    return (h, s.2)
  finalize s := hash.finalize s.1

/-- There are no globals, and the context is the state. -/
def Hash.keepsContexts (hash : Hash H) : Hash (Unit × H) where
  init := do
    let h ← hash.init
    return ((), h)
  update s data := do
    let h ← hash.update s.2 data
    return ((), h)
  finalize s := hash.finalize s.2

def Decrypt.keepsGlobals (decrypt : Decrypt C) (context : L) : Decrypt (C × L) where
  init key iv := do
    let c ← decrypt.init key iv
    return (c, context)
  update s data := do
    let (out, c) ← decrypt.update s.1 data
    return (out, c, s.2)
  finalize s := decrypt.finalize s.1

def Decrypt.keepsContexts (decrypt : Decrypt C) : Decrypt (Unit × C) where
  init key iv := do
    let c ← decrypt.init key iv
    return ((), c)
  update s data := do
    let (out, c) ← decrypt.update s.2 data
    return (out, (), c)
  finalize s := decrypt.finalize s.2

namespace Interface

def keepsGlobals (i : Interface Δ H C) (hashContext : K) (decryptContext : L) :
    Interface Δ (H × K) (C × L) where
  info := i.info
  hash d := (i.hash d).keepsGlobals hashContext
  decrypt d := (i.decrypt d).keepsGlobals decryptContext
  executableRead := i.executableRead
  executableFlasher := i.executableFlasher
  updateRead := i.updateRead
  action := i.action

def keepsContexts (i : Interface Δ H C) : Interface Δ (Unit × H) (Unit × C) where
  info := i.info
  hash d := (i.hash d).keepsContexts
  decrypt d := (i.decrypt d).keepsContexts
  executableRead := i.executableRead
  executableFlasher := i.executableFlasher
  updateRead := i.updateRead
  action := i.action

/-- The globals go on, and the context is that of the reader. -/
def reading (zero : L) (s : Γ × L) : Γ × L := (s.1, zero)

end Interface

/-! ## Implementations

Callbacks over one state implement those over another when a map of the states commutes with them. The
code then gives the same with both. -/

structure Hash.Implements (hash' : Hash H') (hash : Hash H) (f : H' → H) : Prop where
  init : image id f hash'.init = hash.init
  update : ∀ h data, image id f (hash'.update h data) = hash.update (f h) data
  finalize : ∀ h, hash'.finalize h = hash.finalize (f h)

structure Decrypt.Implements (decrypt' : Decrypt C') (decrypt : Decrypt C) (f : C' → C) : Prop where
  init : ∀ key iv, image id f (decrypt'.init key iv) = decrypt.init key iv
  update : ∀ c data, image id (Prod.map id f) (decrypt'.update c data) = decrypt.update (f c) data
  finalize : ∀ c, decrypt'.finalize c = decrypt.finalize (f c)

theorem checkHash_image {hash' : Hash H'} {hash : Hash H} {f : H' → H} (hhash : hash'.Implements hash f)
    {read' : ρ' → Nat → Nat → Except Error (List UInt8 × ρ')}
    {read : ρ → Nat → Nat → Except Error (List UInt8 × ρ)} {g : ρ' → ρ}
    (hread : ∀ r location length,
      image id (Prod.map id g) (read' r location length) = read (g r) location length)
    (r : ρ') (storage range zero : Range) (expected : List UInt8) :
    image id (Prod.map id (Prod.map id g)) (checkHash hash' read' r storage range zero expected) =
      checkHash hash read (g r) storage range zero expected := by
  have hblock : ∀ location length s,
      image id (Prod.map f (Prod.map id g)) (checkHashBlock hash' read' zero location length s) =
        checkHashBlock hash read zero location length (Prod.map f (Prod.map id g) s) := by
    intro location length s
    refine image_bind (hread s.2.2 location length) fun x => ?_
    exact image_bind (hhash.update s.1 _) fun h => rfl
  rw [checkHash, checkHash]
  split
  · rfl
  · refine image_bind hhash.init fun h => ?_
    refine image_bind (Blocks.run_image hblock _ _ _) fun s => ?_
    refine image_bind (f := id) ?_ fun digest => rfl
    rw [image_self]
    exact hhash.finalize s.1

def Installing.map (g : C' → C) (s : Installing Δ C') : Installing Δ C :=
  ⟨g s.decryption, s.device, s.flashLocation, s.nextEraseLocation⟩

namespace Interface

/-- The interfaces differ in the states of the hash and of the decryption. -/
structure Implements (j : Interface Δ H' C') (i : Interface Δ H C) (f : H' → H) (g : C' → C) : Prop where
  info : j.info = i.info
  hash : ∀ d, (j.hash d).Implements (i.hash d) f
  decrypt : ∀ d, (j.decrypt d).Implements (i.decrypt d) g
  executableRead : j.executableRead = i.executableRead
  executableFlasher : j.executableFlasher = i.executableFlasher
  updateRead : j.updateRead = i.updateRead

namespace Implements

variable {j : Interface Δ H' C'} {i : Interface Δ H C} {f : H' → H} {g : C' → C} {d : Δ}

theorem checkHash_reader (h : j.Implements i f g) (read : Δ → Nat → Nat → Except Error (List UInt8))
    (storage range zero : Range) (expected : List UInt8) :
    checkHash (j.hash d) (reader d read) () storage range zero expected =
      checkHash (i.hash d) (reader d read) () storage range zero expected := by
  have himage : image id (Prod.map id (Prod.map id id))
      (checkHash (j.hash d) (reader d read) () storage range zero expected) =
        checkHash (i.hash d) (reader d read) () storage range zero expected :=
    checkHash_image (h.hash d) (g := id) (fun r location length => image_self _) () storage range zero
      expected
  exact (image_self _).symm.trans himage

theorem getExecutableMetadata (h : j.Implements i f g) :
    j.getExecutableMetadata d = i.getExecutableMetadata d := by
  simp only [Interface.getExecutableMetadata, checkExecutable, h.info, h.executableRead, h.checkHash_reader]

theorem decryptRange (h : j.Implements i f g) (m : UpdateMetadata) (range : Range) :
    j.decryptRange d m range = i.decryptRange d m range := by
  have hblock : ∀ location length s, image id (Prod.map g id) (j.decryptBlock d location length s) =
      i.decryptBlock d location length (Prod.map g id s) := by
    intro location length s
    rw [decryptBlock, decryptBlock, h.updateRead]
    refine image_bind (f := id) (image_self _) fun data => ?_
    exact image_bind ((h.decrypt d).update s.1 data) fun x => rfl
  refine (image_self _).symm.trans ?_
  rw [Interface.decryptRange, Interface.decryptRange, h.info]
  refine image_bind (f := id) (image_self _) fun key => ?_
  refine image_bind ((h.decrypt d).init key m.initializationVector) fun c => ?_
  refine image_bind (Blocks.run_image hblock _ _ _) fun s => ?_
  refine image_bind (f := id) ?_ fun _ => rfl
  rw [image_self]
  exact (h.decrypt d).finalize s.1

theorem readAndDecrypt (h : j.Implements i f g) (c : C') (location length : Nat) :
    image id (Prod.map id g) (j.readAndDecrypt d c location length) =
      i.readAndDecrypt d (g c) location length := by
  rw [Interface.readAndDecrypt, Interface.readAndDecrypt, h.updateRead]
  refine image_bind (f := id) (image_self _) fun data => ?_
  dsimp only [id]
  split
  · rfl
  · exact (h.decrypt d).update c data

theorem checkEncryptedFrom (h : j.Implements i f g) {start' : C' → C'} {start : C → C}
    (hstart : ∀ c, g (start' c) = start (g c)) (storage : Range) (m : UpdateMetadata) :
    j.checkEncryptedFrom d start' storage m = i.checkEncryptedFrom d start storage m := by
  refine (image_self _).symm.trans ?_
  rw [Interface.checkEncryptedFrom, Interface.checkEncryptedFrom, h.decryptRange, h.info]
  refine image_bind (f := id) (image_self _) fun decrypted => ?_
  dsimp only [id]
  split
  · rfl
  refine image_bind (f := id) (image_self _) fun key => ?_
  refine image_bind ((h.decrypt d).init key m.initializationVector) fun c => ?_
  refine image_bind (f := id) (image_self _) fun executable => ?_
  rw [← hstart]
  refine image_bind (checkHash_image (h.hash d) (h.readAndDecrypt) (start' c) _ _ _ _) fun x => ?_
  refine image_bind (f := id) ?_ fun _ => ?_
  · rw [image_self]
    exact (h.decrypt d).finalize x.2.2
  · exact image_self _

theorem getUpdateMetadataFrom (h : j.Implements i f g) {start' : C' → C'} {start : C → C}
    (hstart : ∀ c, g (start' c) = start (g c)) :
    j.getUpdateMetadataFrom d start' = i.getUpdateMetadataFrom d start := by
  have hencrypted := h.checkEncryptedFrom (d := d) hstart
  simp only [Interface.getUpdateMetadataFrom, getUpdateMetadataWith, checkUnencrypted, h.info, h.updateRead,
    h.checkHash_reader, hencrypted]

theorem installBlock (h : j.Implements i f g) (size location length : Nat) (s : Installing Δ C') :
    image id (Installing.map g) (j.installBlock size location length s) =
      i.installBlock size location length (s.map g) := by
  rw [Interface.installBlock, Interface.installBlock, h.updateRead, h.executableFlasher]
  refine image_bind (f := id) (image_self _) fun data => ?_
  refine image_bind (f := Prod.map id g) ?_ fun x => ?_
  · rw [raise_image]
    exact congrArg _ ((h.decrypt s.device).update s.decryption data)
  by_cases herase : s.nextEraseLocation = s.flashLocation
  · simp only [Installing.map, herase, if_true]
    refine image_bind (f := id) (image_self _) fun r => ?_
    exact image_bind (f := id) (image_self _) fun d => rfl
  · simp only [Installing.map, herase, if_false]
    refine image_bind (f := id) (image_self _) fun r => ?_
    exact image_bind (f := id) (image_self _) fun d => rfl

theorem installStart (h : j.Implements i f g) (m : UpdateMetadata) :
    image id (Prod.map id (Installing.map g)) (j.installStart d m) = i.installStart d m := by
  rw [Interface.installStart, Interface.installStart, h.info]
  refine image_bind (f := id) (image_self _) fun key => ?_
  refine image_bind ((h.decrypt d).init key m.initializationVector) fun c => ?_
  refine image_bind (f := id) (image_self _) fun executable => ?_
  refine image_bind (f := id) (image_self _) fun storage => rfl

theorem install (h : j.Implements i f g) (m : UpdateMetadata) : j.install d m = i.install d m := by
  refine (image_self _).symm.trans ?_
  rw [Interface.install, Interface.install, h.executableFlasher]
  refine image_bind (f := Prod.map id (Installing.map g)) ?_ fun x => ?_
  · rw [raise_image, h.installStart]
  refine image_bind (Blocks.run_image (h.installBlock m.executableMetadata.length) _ _ _) fun s => ?_
  refine image_bind (f := id) (image_self _) fun d' => ?_
  refine image_bind (f := id) ?_ fun _ => rfl
  rw [image_self]
  exact congrArg _ ((h.decrypt d').finalize s.decryption)

end Implements

/-- Both kinds of callbacks implement the ones that they keep the state of. -/
theorem implements_keepsGlobals (i : Interface Δ H C) (hashContext : K) (decryptContext : L) :
    (i.keepsGlobals hashContext decryptContext).Implements i Prod.fst Prod.fst := by
  refine ⟨rfl, fun d => ⟨?_, fun h data => ?_, fun h => rfl⟩, fun d => ⟨fun key iv => ?_, fun c data => ?_,
    fun c => rfl⟩, rfl, rfl, rfl⟩
  · cases hx : (i.hash d).init <;> simp [keepsGlobals, Hash.keepsGlobals, hx]
  · cases hx : (i.hash d).update h.1 data <;> simp [keepsGlobals, Hash.keepsGlobals, hx]
  · cases hx : (i.decrypt d).init key iv <;> simp [keepsGlobals, Decrypt.keepsGlobals, hx]
  · cases hx : (i.decrypt d).update c.1 data <;> simp [keepsGlobals, Decrypt.keepsGlobals, hx]

theorem implements_keepsContexts (i : Interface Δ H C) : i.keepsContexts.Implements i Prod.snd Prod.snd := by
  refine ⟨rfl, fun d => ⟨?_, fun h data => ?_, fun h => rfl⟩, fun d => ⟨fun key iv => ?_, fun c data => ?_,
    fun c => rfl⟩, rfl, rfl, rfl⟩
  · cases hx : (i.hash d).init <;> simp [keepsContexts, Hash.keepsContexts, hx]
  · cases hx : (i.hash d).update h.2 data <;> simp [keepsContexts, Hash.keepsContexts, hx]
  · cases hx : (i.decrypt d).init key iv <;> simp [keepsContexts, Decrypt.keepsContexts, hx]
  · cases hx : (i.decrypt d).update c.2 data <;> simp [keepsContexts, Decrypt.keepsContexts, hx]

/-- With the state in the globals it is the check of `fd_boot.c` with the default callbacks. -/
theorem getUpdateMetadataFrom_keepsGlobals (i : Interface Δ H C) (hashContext : K) (decryptContext zero : L)
    (d : Δ) : (i.keepsGlobals hashContext decryptContext).getUpdateMetadataFrom d (reading zero) =
      i.getUpdateMetadataFrom d id :=
  (implements_keepsGlobals i hashContext decryptContext).getUpdateMetadataFrom fun _ => rfl

/-- With the state in the contexts the executable is decrypted from the zeroed context on. -/
theorem getUpdateMetadataFrom_keepsContexts (i : Interface Δ H C) (zero : C) (d : Δ) :
    i.keepsContexts.getUpdateMetadataFrom d (reading zero) = i.getUpdateMetadataFrom d fun _ => zero :=
  (implements_keepsContexts i).getUpdateMetadataFrom fun _ => rfl

/-! ## What the contexts change -/

/-- Valid or not, or none where the check failed. -/
def verdict (r : Except Error (Bool × List UInt8)) : Option Bool := r.toOption.map (·.1)

/-- The check of an encrypted update comes to its executable. -/
structure Reaches (i : Interface Δ H C) (d : Δ) (storage : Range) (metadata : UpdateMetadata)
    (executable : InfoExecutable) (c : C) : Prop where
  front : i.frontUpdate d = .ok (.ok (storage, metadata))
  encrypted : metadata.encrypted = true
  opened : i.openEncrypted d metadata = .ok (.ok (c, executable))

/-- What is reported where the check comes to the executable. -/
theorem outcome_checkEncrypted {i : Interface Δ H C} {d : Δ} {storage : Range} {metadata : UpdateMetadata}
    {executable : InfoExecutable} {c : C} (h : i.Reaches d storage metadata executable c) (start : C → C) :
    outcome (i.getUpdateMetadataFrom d start) =
      (verdict (i.checkFrom d storage metadata executable (start c))).map fun isValid =>
        if isValid then .ok metadata else .error .hash := by
  have hfrom : i.getUpdateMetadataFrom d start =
      i.checkFrom d storage metadata executable (start c) >>= conclude metadata := by
    rw [getUpdateMetadataFrom, getUpdateMetadataWith_eq, h.front, andThen_ok, if_pos h.encrypted,
      checkEncryptedFrom_eq, h.opened, andThen_ok]
  rw [hfrom]
  cases i.checkFrom d storage metadata executable (start c) with
  | error e => rfl
  | ok x =>
    obtain ⟨isValid, data⟩ := x
    cases isValid with
    | false => rfl
    | true => rfl

/-- Elsewhere the state of the reader does not matter. -/
theorem getUpdateMetadataFrom_congr {i : Interface Δ H C} {d : Δ} {start start' : C → C}
    (h : ∀ storage metadata executable c, ¬ i.Reaches d storage metadata executable c) :
    i.getUpdateMetadataFrom d start = i.getUpdateMetadataFrom d start' := by
  rw [getUpdateMetadataFrom, getUpdateMetadataFrom, getUpdateMetadataWith_eq, getUpdateMetadataWith_eq]
  refine andThen_congr fun x hfront => ?_
  by_cases hencrypted : x.2.encrypted = true
  · rw [if_pos hencrypted, if_pos hencrypted, checkEncryptedFrom_eq, checkEncryptedFrom_eq]
    refine andThen_congr fun y hopened => ?_
    exact absurd ⟨hfront, hencrypted, hopened⟩ (h x.1 x.2 y.2 y.1)
  · rw [if_neg hencrypted, if_neg hencrypted]

end Interface

/-- Both kinds of callbacks give the same if and only if the executable of an encrypted update is found
valid or not alike, when it is decrypted with the zeroed context and when with the initialized one, as far
as it comes to it. -/
theorem keeps_iff (i : Interface Δ H C) (hashContext : K) (decryptContext zero : L) (zero' : C) (d : Δ) :
    ((i.keepsGlobals hashContext decryptContext).getExecutableMetadata d =
        i.keepsContexts.getExecutableMetadata d ∧
      outcome ((i.keepsGlobals hashContext decryptContext).getUpdateMetadataFrom d (Interface.reading zero)) =
        outcome (i.keepsContexts.getUpdateMetadataFrom d (Interface.reading zero')) ∧
      ∀ metadata, (i.keepsGlobals hashContext decryptContext).install d metadata =
        i.keepsContexts.install d metadata) ↔
    ∀ storage metadata executable c, i.Reaches d storage metadata executable c →
      Interface.verdict (i.checkFrom d storage metadata executable c) =
        Interface.verdict (i.checkFrom d storage metadata executable zero') := by
  have hglobals := Interface.implements_keepsGlobals i hashContext decryptContext
  have hcontexts := Interface.implements_keepsContexts i
  rw [Interface.getUpdateMetadataFrom_keepsGlobals, Interface.getUpdateMetadataFrom_keepsContexts]
  constructor
  · rintro ⟨-, hsame, -⟩ storage metadata executable c hreaches
    rw [Interface.outcome_checkEncrypted hreaches, Interface.outcome_checkEncrypted hreaches] at hsame
    refine Option.map_injective (fun x y hxy => ?_) hsame
    cases x <;> cases y <;> cases hxy <;> rfl
  · intro h
    refine ⟨?_, ?_, fun metadata => ?_⟩
    · rw [hglobals.getExecutableMetadata, hcontexts.getExecutableMetadata]
    · by_cases hreaches : ∃ storage metadata executable c, i.Reaches d storage metadata executable c
      · obtain ⟨storage, metadata, executable, c, hreaches⟩ := hreaches
        rw [Interface.outcome_checkEncrypted hreaches, Interface.outcome_checkEncrypted hreaches]
        exact congrArg _ (h storage metadata executable c hreaches)
      · push Not at hreaches
        rw [Interface.getUpdateMetadataFrom_congr hreaches]
    · rw [hglobals.install, hcontexts.install]

namespace Sample

/-- A context of zeros. -/
def zeroed : List UInt8 × List UInt8 := ([0], List.replicate 16 0)

/-- The metadata of the package. -/
def packaged : UpdateMetadata :=
  ⟨⟨⟨1, 2, 3⟩, 192, List.replicate 20 208⟩, List.replicate 20 61, 1, initializationVector⟩

end Sample

/-- The valid package is found invalid by callbacks that keep their state in the contexts. -/
theorem not_keeps : (∃ metadata, outcome ((Sample.setup.interface.keepsGlobals () ()).getUpdateMetadataFrom
      (Sample.board ⟨1, 2, 3⟩ fun _ => 0xff) (Interface.reading ())) = some (.ok metadata)) ∧
    outcome (Sample.setup.interface.keepsContexts.getUpdateMetadataFrom
      (Sample.board ⟨1, 2, 3⟩ fun _ => 0xff) (Interface.reading Sample.zeroed)) = some (.error .hash) := by
  have hread : Nor.read (Sample.board ⟨1, 2, 3⟩ fun _ => 0xff).update 0 512 =
      (Sample.package ⟨1, 2, 3⟩).2 := by
    have hread := Sample.read_board ⟨1, 2, 3⟩ fun _ => 0xff
    rwa [Sample.length_package.2] at hread
  have hfits : Sample.setup.Fits (Nor.read (Sample.board ⟨1, 2, 3⟩ fun _ => 0xff).update 0 512) 0 :=
    ⟨by decide, fun _ _ _ => by decide, fun _ _ _ => by decide⟩
  have hfront : Sample.setup.front (Sample.package ⟨1, 2, 3⟩).2 = .ok (.ok Sample.packaged) := by
    decide +kernel
  have hmatch : Sample.setup.Matches (Nor.read (Sample.board ⟨1, 2, 3⟩ fun _ => 0xff).update 128 128)
      Sample.packaged := by
    have hwindow := field_read (Sample.board ⟨1, 2, 3⟩ fun _ => 0xff).update 0 (n := 512) (i := 128)
      (l := 128) (by decide)
    rw [hread, Nat.zero_add] at hwindow
    rw [← hwindow]
    decide +kernel
  have hreaches : Sample.setup.interface.Reaches (Sample.board ⟨1, 2, 3⟩ fun _ => 0xff) ⟨0, 512⟩
      Sample.packaged Sample.setup.executable (Sample.setup.key, Sample.packaged.initializationVector) := by
    refine ⟨?_, by decide, ?_⟩
    · have hstorage : Sample.setup.updateStorage = ⟨0, 512⟩ := rfl
      rw [Setup.frontUpdate_eq hstorage (by decide) hfits, hread, hfront,
        Interface.andThen_ok]
    · rw [Setup.openEncrypted_eq (by decide), if_pos hmatch]
  have hinvalid : (Sample.setup.checkEncryptedContent Sample.zeroed (Sample.package ⟨1, 2, 3⟩).2
      Sample.packaged).1 = false := by decide +kernel
  have hcheck : Sample.setup.interface.checkFrom (Sample.board ⟨1, 2, 3⟩ fun _ => 0xff) ⟨0, 512⟩
      Sample.packaged Sample.setup.executable ([0], List.replicate 16 0) =
        .ok (Sample.setup.checkEncryptedContent ([0], List.replicate 16 0)
          (Nor.read (Sample.board ⟨1, 2, 3⟩ fun _ => 0xff).update 0 512) Sample.packaged) :=
    Setup.checkFrom_eq (by decide) (by decide) (by decide) (by decide) (by decide) (by decide) [0]
      (by decide)
  constructor
  · obtain ⟨-, m, -, -, hget, -⟩ := Sample.package_valid fun _ => 0xff
    rw [Interface.getUpdateMetadataFrom_keepsGlobals, Interface.getUpdateMetadataFrom_id, hget]
    exact ⟨m, rfl⟩
  · rw [Interface.getUpdateMetadataFrom_keepsContexts, Interface.outcome_checkEncrypted hreaches,
      Sample.zeroed, hcheck, hread]
    change some (if (Sample.setup.checkEncryptedContent Sample.zeroed (Sample.package ⟨1, 2, 3⟩).2
      Sample.packaged).1 then _ else _) = _
    rw [hinvalid]
    rfl

end Boot
end Firefly
