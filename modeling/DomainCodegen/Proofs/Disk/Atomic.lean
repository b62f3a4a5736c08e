import DomainCodegen.Proofs.Disk.Storing

/-!
# All or nothing

A text that is saved through a temporary file is saved as a whole or not at all, on any disk and by
any path (`save_all_or_nothing`): an attempt that fails has made directories on the way and nothing
else, wherever it failed, and one that succeeds leaves what the plain way to write would have left.
The file then has the encoded text, except for an ending that its codec keeps back
(`save_keeps_ending_back`).
-/

namespace DomainCodegen.Disk

open Text (Codec EncodingFault)

variable {disk made after : Disk} {p : Path} {place other start : Location} {names : List String}
  {mode : SaveMode} {content : String} {bytes : List UInt8}

/-! ## The way of a path -/

/-- Where names lead if nothing stops them. -/
def endOf (start : Location) (names : List String) : Location :=
  names.foldl (fun place name => if name = ".." then place.dropLast else place ++ [name]) start

/-- A path leads to a place or through it. -/
def OnWay (disk : Disk) (p : Path) (place : Location) : Prop :=
  ∃ front, front <+: p.names ∧ place = endOf (disk.startOf p) front

theorem endOf_cons (start : Location) (name : String) (names : List String) :
    endOf start (name :: names) =
      endOf (if name = ".." then start.dropLast else start ++ [name]) names := rfl

/-- A walk that ends has followed its names, through directories only. -/
theorem endOf_of_walk (h : disk.walk start names = .ok place) :
    place = endOf start names ∧ ∀ front, front <+: names → front ≠ names →
      disk.get? (endOf start front) = some .directory := by
  induction names generalizing start with
  | nil =>
    cases h
    exact ⟨rfl, fun front hf hne => absurd (List.prefix_nil.mp hf) hne⟩
  | cons name r ih =>
    obtain ⟨hd, hstep⟩ : disk.get? start = some .directory ∧
        disk.walk (if name = ".." then start.dropLast else start ++ [name]) r = .ok place := by
      rw [walk_cons] at h
      cases he : disk.get? start with
      | none => rw [he] at h; cases h
      | some entry =>
      cases entry with
      | file bytes => rw [he] at h; cases h
      | directory =>
        rw [he] at h
        dsimp only at h
        refine ⟨rfl, ?_⟩
        split at h
        next hup => rwa [if_pos hup]
        split at h
        · cases h
        next hup _ => rwa [if_neg hup]
    obtain ⟨hplace, hway⟩ := ih hstep
    refine ⟨hplace, fun front hf hne => ?_⟩
    cases front with
    | nil => exact hd
    | cons first rest =>
      obtain ⟨rfl, hrest⟩ := List.cons_prefix_cons.mp hf
      rw [endOf_cons]
      exact hway rest hrest fun he => hne (he ▸ rfl)

section

variable [Surrogates]

theorem hasUnfit_of_locate (h : disk.locate p = .ok place) : p.hasUnfit = false := by
  unfold locate at h
  split at h
  · cases h
  next hfit => exact unfit?_eq_none_iff.mp hfit

theorem walk_of_locate (h : disk.locate p = .ok place) :
    disk.walk (disk.startOf p) p.names = .ok place := by
  unfold locate at h
  split at h
  · cases h
  split at h
  · cases h
  cases hw : disk.walk (disk.startOf p) p.names with
  | error reason => rw [hw] at h; cases h
  | ok reached =>
    rw [hw] at h
    cases h
    rfl

/-- Everything above the end of a path that leads somewhere is a directory. -/
theorem directory_of_onWay_parent (h : disk.locate p = .ok place) (hne : p.names ≠ [])
    (hw : disk.OnWay p.parent other) : disk.get? other = some .directory := by
  obtain ⟨front, hf, rfl⟩ := hw
  refine (endOf_of_walk (walk_of_locate h)).2 front (hf.trans (List.dropLast_prefix _)) ?_
  rintro rfl
  have hle : p.names.length ≤ p.names.dropLast.length := hf.length_le
  have hpos := List.length_pos_iff.mpr hne
  rw [List.length_dropLast] at hle
  omega

/-! ## Directories that are gained -/

omit [Surrogates] in
theorem makeMissing_gains (disk : Disk) (path : Path) (start : Location) (names : List String) :
    Gains (fun place => ∃ front, front <+: names ∧ place = endOf start front) disk
      (disk.makeMissing path start names).2 := by
  induction names generalizing disk path start with
  | nil => exact (Same.refl disk).gains
  | cons name r ih =>
    -- what lies on the rest of the way lies on the whole of it
    have hmono : ∀ {next : Location},
        next = (if name = ".." then start.dropLast else start ++ [name]) → ∀ place,
        (∃ front, front <+: r ∧ place = endOf next front) →
          ∃ front, front <+: name :: r ∧ place = endOf start front := by
      rintro _ rfl _ ⟨front, hf, rfl⟩
      exact ⟨name :: front, List.cons_prefix_cons.mpr ⟨rfl, hf⟩, rfl⟩
    unfold makeMissing
    dsimp only
    split
    next hup => exact (ih disk _ _).mono (hmono (if_pos hup).symm)
    next hup =>
    split
    · exact (Same.refl disk).gains
    split
    · exact (ih disk _ _).mono (hmono (if_neg hup).symm)
    · exact (Same.refl disk).gains
    next hn =>
      refine (gains_set ⟨[name], ?_, ?_⟩ hn).trans ((ih _ _ _).mono (hmono (if_neg hup).symm))
      · exact List.cons_prefix_cons.mpr ⟨rfl, List.nil_prefix⟩
      · rw [endOf_cons, if_neg hup]
        rfl

/-- Making directories changes nothing but that they appear, however far it comes. -/
theorem makeDirectories_gains (disk : Disk) (p : Path) :
    Gains (disk.OnWay p) disk (disk.makeDirectories p).2 := by
  unfold makeDirectories
  cases hm : disk.makeDirectory p with
  | ok made =>
    unfold makeDirectory at hm
    split at hm
    · cases hm
    next place hl =>
    split at hm
    · cases hm
    next hn =>
    cases hm
    have hplace := (endOf_of_walk (walk_of_locate hl)).1
    exact gains_set ⟨p.names, List.prefix_rfl, hplace⟩ (by simpa using hn)
  | error fault =>
    split
    · next heq => cases heq
    · exact makeMissing_gains disk _ _ _
    · exact (Same.refl disk).gains

/-! ## Saving with the directories -/

/-- A text that was saved is where its path leads, and but for directories on the way nothing else
has changed. -/
theorem save_eq_ok (h : disk.save mode p content = (.ok (), after)) :
    ∃ made place bytes, Gains (disk.OnWay p.parent) disk made ∧
      Stored mode p content place bytes made after := by
  have hg := makeDirectories_gains disk p.parent
  rw [save_eq] at h
  rcases hm : disk.makeDirectories p.parent with ⟨fault | u, made⟩ <;> rw [hm] at h hg
  · cases h
  replace h : made.saveHere mode p content = (.ok (), after) := h
  unfold saveHere at h
  split at h
  · rcases saveThrough_cases made mode p content with
      ⟨fault, after', he, -⟩ | ⟨place, bytes, after', he, hs⟩ <;> rw [he] at h <;> cases h
    exact ⟨made, place, bytes, hg, hs⟩
  · obtain ⟨place, bytes, hs⟩ := saveInPlace_eq_ok h
    exact ⟨made, place, bytes, hg, hs⟩

/-- Where saving through a temporary file fails, directories on the way are all that is left. -/
theorem gains_of_save_error {fault : SaveFault} (ha : mode.atomic = true)
    (h : disk.save mode p content = (.error fault, after)) :
    Gains (disk.OnWay p.parent) disk after := by
  have hg := makeDirectories_gains disk p.parent
  rw [save_eq] at h
  rcases hm : disk.makeDirectories p.parent with ⟨met | u, made⟩ <;> rw [hm] at h hg
  · cases h
    exact hg
  replace h : made.saveHere mode p content = (.error fault, after) := h
  unfold saveHere at h
  rw [if_pos ha] at h
  rcases saveThrough_cases made mode p content with
    ⟨fault', after', he, hs⟩ | ⟨place, bytes, after', he, -⟩ <;> rw [he] at h <;> cases h
  exact hg.trans hs.gains

/-- What was saved through a temporary file can be saved without one, and the disk is the same. -/
theorem save_of_atomic {encoding : Except EncodingFault Codec}
    (h : disk.save { encoding, atomic := true } p content = (.ok (), after)) :
    ∃ plain, disk.save { encoding, atomic := false } p content = (.ok (), plain) ∧
      Same after plain := by
  rw [save_eq] at h ⊢
  rcases hm : disk.makeDirectories p.parent with ⟨met | u, made⟩ <;> rw [hm] at h
  · cases h
  replace h : made.saveThrough { encoding, atomic := true } p content = (.ok (), after) := h
  rcases saveThrough_cases made { encoding, atomic := true } p content with
    ⟨fault, after', he, -⟩ | ⟨place, bytes, after', he, hs⟩ <;> rw [he] at h <;> cases h
  obtain ⟨plain, hplain, hsame⟩ :
      ∃ plain, made.saveInPlace { encoding, atomic := false } p content = (.ok (), plain) ∧
        Same (made.set place (.file bytes)) plain :=
    saveInPlace_of_encode hs.encode hs.locate hs.get?_ne
  exact ⟨plain, hplain, hs.same.symm.trans hsame⟩

/-- What is saved is what the codec writes. -/
theorem encode_eq_ok {encoding : Except EncodingFault Codec}
    (h : SaveMode.encode { encoding } content = .ok bytes) :
    ∃ codec, encoding = .ok codec ∧ codec.write (Text.codePoints content) = .ok bytes := by
  cases encoding with
  | error fault => cases h
  | ok codec =>
    refine ⟨codec, rfl, ?_⟩
    replace h :
        (codec.write (Text.codePoints content)).mapError SaveFault.unencodable = .ok bytes := h
    cases hw : codec.write (Text.codePoints content) with
    | error e => rw [hw] at h; cases h
    | ok written => rw [hw] at h; exact congrArg Except.ok (Except.ok.inj h)

/-- Saving through a temporary file fails and has only made directories on the way, whatever went
wrong; or the path leads to what the codec writes, every other file is as it was, and saving without
a temporary file succeeds too and leaves the same entries. What the codec writes is a beginning of
the encoded text, and all of it unless the codec keeps an ending back. -/
theorem save_all_or_nothing (disk : Disk) (encoding : Except EncodingFault Codec) (p : Path)
    (content : String) :
    (∃ fault after, disk.save { encoding, atomic := true } p content = (.error fault, after) ∧
      Gains (disk.OnWay p.parent) disk after) ∨
    ∃ codec bytes place after plain, encoding = .ok codec ∧
      disk.save { encoding, atomic := true } p content = (.ok (), after) ∧
      codec.write (Text.codePoints content) = .ok bytes ∧
      (∀ encoded, codec.encode (Text.codePoints content) = .ok encoded → bytes <+: encoded) ∧
      (codec.WritesWhole (Text.codePoints content) →
        codec.encode (Text.codePoints content) = .ok bytes) ∧
      after.locate p = .ok place ∧ after.get? place = some (.file bytes) ∧
      (∀ other, other ≠ place → after.get? other = disk.get? other ∨
        (disk.OnWay p.parent other ∧ disk.get? other = none ∧
          after.get? other = some .directory)) ∧
      disk.save { encoding, atomic := false } p content = (.ok (), plain) ∧
      ∀ other, plain.get? other = after.get? other := by
  rcases h : disk.save { encoding, atomic := true } p content with ⟨fault | u, after⟩
  · exact .inl ⟨fault, after, rfl, gains_of_save_error rfl h⟩
  obtain ⟨made, place, bytes, hg, hs⟩ := save_eq_ok h
  obtain ⟨codec, rfl, hw⟩ := encode_eq_ok hs.encode
  obtain ⟨plain, hplain, hsame⟩ := save_of_atomic h
  have hlocate : after.locate p = .ok place :=
    ((lasts_set_file hs.get?_ne).trans hs.same.lasts).locate hs.locate
  refine .inr ⟨codec, bytes, place, after, plain, rfl, rfl, hw,
    fun encoded => codec.write_prefix _ _ _ hw, fun hall => hall ▸ hw, hlocate, ?_,
    fun other ho => ?_, hplain, hsame.entry⟩
  · rw [hs.get?_eq, if_pos rfl]
  · rw [hs.get?_eq, if_neg ho]
    exact hg.entry other

end

open scoped Surrogates

/-- A text whose codec keeps an ending back. -/
def hiraganaSaved : Except SaveFault Unit × Disk :=
  Disk.save {} { encoding := .ok .hiragana } (.ofString "a.txt") "あ"

/-- A file that is saved with success can hold other bytes than the encoded text: hiragana in
ISO-2022-JP are written without the bytes that switch back to ASCII. -/
theorem save_keeps_ending_back : ∃ written encoded, hiraganaSaved.1 = .ok () ∧
    hiraganaSaved.2.fileAt (.ofString "a.txt") = .ok written ∧
    Codec.hiragana.encode (Text.codePoints "あ") = .ok encoded ∧ written ≠ encoded :=
  ⟨[0x1b, 0x24, 0x42, 0x24, 0x22], [0x1b, 0x24, 0x42, 0x24, 0x22, 0x1b, 0x28, 0x42],
    by decide +kernel, by decide +kernel, by decide +kernel, by decide⟩

end DomainCodegen.Disk
