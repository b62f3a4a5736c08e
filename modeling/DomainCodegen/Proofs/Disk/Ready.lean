import DomainCodegen.Proofs.Disk.Reach
import Mathlib.Data.String.Basic

/-!
# Targets that are ready

Saving writes to a target that is ready and to no other one (`save_effect`). As nothing that lasts
goes away, a target does not become ready later on (`Lasts.ready`). What makes a target ready, but
for the limits of its path, is the same for all paths to it: the temporary names of a file are all
of one length, so that one of them fits if another does (`Ready.other`).
-/

namespace DomainCodegen

/-- A path fits if another one fits that differs from it in the last name, by one of that size. -/
theorem Path.Fits.of_last [Surrogates] {p q : Path} {front : List String} {last last' : String}
    (h : p.Fits) (habs : p.isAbsolute = true) (hp : p.names = front ++ [last])
    (hq : q.names = front ++ [last']) (hstart : q.start = p.start)
    (hsize : last'.utf8ByteSize = last.utf8ByteSize)
    (hunfit : last.toList.any isUnfit = false → last'.toList.any isUnfit = false) : q.Fits where
  noUnfit := by
    have hno := h.noUnfit
    unfold hasUnfit hasAny at hno ⊢
    rw [hp] at hno
    rw [hq]
    simp only [List.any_append, List.any_cons, List.any_nil, Bool.or_false,
      Bool.or_eq_false_iff] at hno ⊢
    exact ⟨hno.1, hunfit hno.2⟩
  text_le := by
    have habs' : q.isAbsolute = true := by
      unfold isAbsolute
      rw [hstart]
      exact habs
    have htext : q.text.utf8ByteSize = p.text.utf8ByteSize := by
      rw [text_of_isAbsolute habs, text_of_isAbsolute habs', hp, hq, hstart,
        String.utf8ByteSize_append, String.utf8ByteSize_append]
      by_cases hf : front = []
      · rw [hf]
        simp [hsize]
      · rw [String.intercalate_append_of_ne_nil hf (by simp),
          String.intercalate_append_of_ne_nil hf (by simp)]
        simp [hsize]
    rw [htext]
    exact h.text_le
  name_le name hn := by
    rw [hq] at hn
    rcases List.mem_append.mp hn with hn | hn
    · exact h.name_le name (by rw [hp]; exact List.mem_append_left _ hn)
    · rw [List.mem_singleton.mp hn, hsize]
      exact h.name_le last (by rw [hp]; simp)

namespace Disk

variable {disk after : Disk} {p q : Path} {dir place : Location} {name content : String}
  {mode : SaveMode} {bytes : List UInt8} {home : Path} {atomic : Bool} {k l : Nat}

/-! ## Temporary names -/

theorem isDigit_of_mem_padded {c : Char} (h : c ∈ (padded k).toList) : c.isDigit = true := by
  unfold padded at h
  rw [String.toList_append, String.toList_ofList, List.mem_append] at h
  rcases h with h | h
  · rw [List.eq_of_mem_replicate h]
    decide
  · rw [Nat.toString_eq_repr, Nat.toList_repr] at h
    exact Nat.isDigit_of_mem_toDigits (by decide) (by decide) h

theorem utf8Len_of_isDigit {cs : List Char} (h : ∀ c ∈ cs, c.isDigit = true) :
    String.utf8Len cs = cs.length := by
  induction cs with
  | nil => rfl
  | cons c r ih =>
    have hc : c.toNat ≤ '9'.toNat := (Char.isDigit_iff_toNat.mp (h c List.mem_cons_self)).2
    have hsize : c.utf8Size = 1 := by
      rw [Char.utf8Size_eq_one_iff]
      show c.toNat ≤ 127
      exact hc.trans (by decide)
    rw [String.utf8Len_cons, ih fun d hd => h d (List.mem_cons_of_mem c hd), hsize,
      List.length_cons]

/-- The numbers of temporary files have eight digits. -/
theorem utf8ByteSize_padded (hk : k < temporaryLimit) : (padded k).utf8ByteSize = 8 := by
  have hlen : (toString k).length ≤ 8 := by
    rw [← String.length_toList, Nat.toString_eq_repr, Nat.toList_repr]
    exact (Nat.length_toDigits_le_iff (by decide) (by decide)).mpr hk
  rw [← String.utf8Len_toList, utf8Len_of_isDigit fun c hc => isDigit_of_mem_padded hc]
  unfold padded
  rw [String.toList_append, List.length_append, String.toList_ofList, List.length_replicate,
    String.length_toList]
  omega

theorem utf8ByteSize_temporaryName (hk : k < temporaryLimit) (hl : l < temporaryLimit) :
    (temporaryName name l).utf8ByteSize = (temporaryName name k).utf8ByteSize := by
  unfold temporaryName
  simp only [String.utf8ByteSize_append, utf8ByteSize_padded hk, utf8ByteSize_padded hl]

theorem any_eq_false_of_isDigit {kind : Char → Bool} (hk : Path.IsExotic kind) {cs : List Char}
    (h : ∀ c ∈ cs, c.isDigit = true) : cs.any kind = false := by
  refine hk.any_eq_false (List.all_eq_true.mpr fun c hc => ?_)
  have hdigit : 48 ≤ c.toNat ∧ c.toNat ≤ 57 := Char.isDigit_iff_toNat.mp (h c hc)
  simp only [Path.isCommon, Bool.and_eq_true, decide_eq_true_eq]
  omega

/-- A temporary file has no other odd characters in its name than the file. -/
theorem any_temporaryName {kind : Char → Bool} (hk : Path.IsExotic kind) (name : String) (k : Nat) :
    (temporaryName name k).toList.any kind = name.toList.any kind := by
  have hdot : ".".toList.any kind = false := hk.any_eq_false (by decide)
  have hpadded : (padded k).toList.any kind = false :=
    any_eq_false_of_isDigit hk fun _ => isDigit_of_mem_padded
  have hend : ".tmp".toList.any kind = false := hk.any_eq_false (by decide)
  unfold temporaryName
  simp only [String.toList_append, List.any_append, hdot, hpadded, hend, Bool.or_false,
    Bool.false_or]

theorem isAbsolute_normal (hhome : home.isAbsolute = true) (p : Path) :
    (Path.normal home p).isAbsolute = true := by
  show (home.join p).isAbsolute = true
  unfold Path.join
  split
  · assumption
  · exact hhome

theorem open_empty (place : Location) : Disk.Open {} place := by
  intro front _ bytes hb
  unfold get? at hb
  split at hb <;> cases hb

variable [Surrogates]

/-- All temporary paths of a file fit, or none does. -/
theorem temporaryPath_fits (hhome : home.isAbsolute = true) (hk : k < temporaryLimit)
    (hl : l < temporaryLimit) (h : (temporaryPath home p k).Fits) :
    (temporaryPath home p l).Fits := by
  have hnames : ∀ i, (temporaryPath home p i).names =
      (Path.normal home p.parent).names ++ [temporaryName p.name i] := fun _ => rfl
  have hstart : ∀ i, (temporaryPath home p i).start = (Path.normal home p.parent).start :=
    fun _ => rfl
  have habs : (temporaryPath home p k).isAbsolute = true := isAbsolute_normal hhome p.parent
  exact h.of_last habs (hnames k) (hnames l) ((hstart l).trans (hstart k).symm)
    (utf8ByteSize_temporaryName hk hl) fun hno => by
      rwa [any_temporaryName Path.isExotic_unfit] at hno ⊢

/-! ## Ready targets -/

/-- The system lets a text be put at a path, which leads to a name in a directory: no file is in the
way of the directory, no directory is in the place of the file, and a temporary file can be made
beside it if one is needed. -/
structure Ready (disk : Disk) (atomic : Bool) (dir : Location) (name : String) (p : Path) :
    Prop where
  way : disk.Open dir
  fits : p.Fits
  target : disk.get? (dir ++ [name]) ≠ some .directory
  temporary : atomic = true → ∃ k < temporaryLimit,
    (temporaryPath disk.homePath p k).Fits ∧ disk.get? (dir ++ [temporaryName name k]) = none

/-- Where nothing is, a target is ready. -/
theorem ready_of_free (ho : disk.Open dir) (hp : p.Fits)
    (htemp : atomic = true → (temporaryPath disk.homePath p 0).Fits)
    (hfree : ∀ kin, disk.get? (dir ++ [kin]) = none) : disk.Ready atomic dir name p where
  way := ho
  fits := hp
  target := by
    rw [hfree name]
    exact nofun
  temporary ha := ⟨0, by decide, htemp ha, hfree _⟩

/-- A target that is ready was ready before. -/
theorem Lasts.ready (h : Lasts disk after) (hr : after.Ready atomic dir name p) :
    disk.Ready atomic dir name p where
  way := h.of_open hr.way
  fits := hr.fits
  target hd := hr.target (h.directory _ hd)
  temporary ha := by
    obtain ⟨k, hk, hfits, hn⟩ := hr.temporary ha
    rw [h.homePath_eq] at hfits
    exact ⟨k, hk, hfits, h.eq_none hn⟩

/-- A target that is ready by one path is so by any path by which it ever was. -/
theorem Ready.other (h : disk.Ready atomic dir name p) (h' : after.Ready atomic dir name q)
    (hhome : after.homePath = disk.homePath) : disk.Ready atomic dir name q where
  way := h.way
  fits := h'.fits
  target := h.target
  temporary ha := by
    obtain ⟨k, hk, -, hn⟩ := h.temporary ha
    obtain ⟨l, hl, hfits, -⟩ := h'.temporary ha
    rw [hhome] at hfits
    exact ⟨k, hk, temporaryPath_fits rfl hl hk hfits, hn⟩

/-- Directories on the way change nothing about it. -/
theorem Grows.ready_iff (h : Grows dir disk after) :
    after.Ready atomic dir name p ↔ disk.Ready atomic dir name p := by
  have hhome : after.homePath = disk.homePath := by
    unfold homePath
    rw [h.home]
  have hentry : ∀ kin, after.get? (dir ++ [kin]) = disk.get? (dir ++ [kin]) := fun kin =>
    h.get?_eq append_singleton_not_prefix
  have htemporary : (∃ k < temporaryLimit, (temporaryPath after.homePath p k).Fits ∧
      after.get? (dir ++ [temporaryName name k]) = none) ↔
      ∃ k < temporaryLimit, (temporaryPath disk.homePath p k).Fits ∧
        disk.get? (dir ++ [temporaryName name k]) = none := by
    simp only [hhome, hentry]
  constructor
  · intro hr
    exact ⟨h.open_iff.mp hr.way, hr.fits, hentry name ▸ hr.target,
      fun ha => htemporary.mp (hr.temporary ha)⟩
  · intro hr
    exact ⟨h.open_iff.mpr hr.way, hr.fits, (hentry name).symm ▸ hr.target,
      fun ha => htemporary.mpr (hr.temporary ha)⟩

/-! ## Saving to a target -/

/-- The bytes in a target that was opened for a text. A text that cannot be encoded leaves it empty
if there is no temporary file. -/
def SaveMode.written (mode : SaveMode) (content : String) : Option (List UInt8) :=
  match mode.encode content with
  | .ok bytes => some bytes
  | .error _ => if mode.atomic || mode.isRefusedAtOnce then none else some []

/-- Saving a text puts these bytes into its target. -/
def Writes (disk : Disk) (mode : SaveMode) (dir : Location) (name : String) (p : Path)
    (content : String) (bytes : List UInt8) : Prop :=
  disk.Ready mode.atomic dir name p ∧ mode.written content = some bytes

theorem written_of_encode (h : mode.encode content = .ok bytes) :
    mode.written content = some bytes := by
  unfold SaveMode.written
  rw [h]

theorem encode_of_written_eq_none (h : mode.written content = none) :
    ∃ fault, mode.encode content = .error fault := by
  unfold SaveMode.written at h
  cases he : mode.encode content with
  | error fault => exact ⟨fault, rfl⟩
  | ok bytes => rw [he] at h; cases h

/-- UTF-8 has bytes for the texts without lone surrogates. -/
theorem encode_utf8_cases (content : String) (h : mode.encoding = .ok .utf8) :
    Text.hasSurrogate content = false ∧
        mode.encode content = .ok (Text.Utf8.encode content.toList) ∨
      Text.hasSurrogate content = true ∧
        ∃ error, mode.encode content = .error (.unencodable error) := by
  have henc : mode.encode content =
      (Text.encodeUtf8 (Text.codePoints content)).mapError .unencodable := by
    unfold SaveMode.encode
    rw [h]
    rfl
  rw [henc]
  cases he : Text.encodeUtf8 (Text.codePoints content) with
  | ok bytes =>
    obtain ⟨hs, rfl⟩ := Text.encodeUtf8_codePoints_iff.mp he
    exact .inl ⟨hs, rfl⟩
  | error error =>
    refine .inr ⟨?_, error, rfl⟩
    by_contra hs
    rw [Text.encodeUtf8_codePoints_iff.mpr ⟨eq_false_of_ne_true hs, rfl⟩] at he
    cases he

theorem encode_utf8 (h : mode.encoding = .ok .utf8) (hs : Text.hasSurrogate content = false) :
    mode.encode content = .ok (Text.Utf8.encode content.toList) := by
  obtain ⟨-, he⟩ | ⟨htrue, -⟩ := encode_utf8_cases content h
  · exact he
  · rw [hs] at htrue
    cases htrue

theorem isOk_encode_of_utf8 (h : mode.encoding = .ok .utf8) :
    (mode.encode content).isOk = !Text.hasSurrogate content := by
  obtain ⟨hs, he⟩ | ⟨hs, error, he⟩ := encode_utf8_cases content h
  · rw [hs, he]
    rfl
  · rw [hs, he]
    rfl

theorem written_of_utf8 (h : mode.encoding = .ok .utf8) :
    mode.written content =
      if Text.hasSurrogate content then if mode.atomic then none else some []
      else some (Text.Utf8.encode content.toList) := by
  have hrefused : mode.isRefusedAtOnce = false := by
    unfold SaveMode.isRefusedAtOnce
    rw [h]
  unfold SaveMode.written
  obtain ⟨hs, he⟩ | ⟨hs, error, he⟩ := encode_utf8_cases content h
  · rw [hs, he]
    rfl
  · rw [hs, he, hrefused, Bool.or_false]
    rfl

theorem exists_freeTemporary (hr : disk.Room dir) (hb : disk.Beside dir name p)
    (hk : k < temporaryLimit) (hfits : (temporaryPath disk.homePath p k).Fits)
    (hn : disk.get? (dir ++ [temporaryName name k]) = none) :
    ∃ l < temporaryLimit, disk.freeTemporary p = .ok (temporaryPath disk.homePath p l) := by
  have hhold : ∀ l < temporaryLimit, disk.holds (temporaryPath disk.homePath p l) =
      .ok (disk.get? (dir ++ [temporaryName name l])).isSome := fun l hl => by
    rw [holds_of_fits hr.wellFormed (hb.temporary l).straight (temporaryPath_fits rfl hk hl hfits),
      (hb.temporary l).place]
  obtain ⟨l, hbefore, hl⟩ := firstFree_firstAt (temporaryName_injective name) hb.temporary
  have hlk : l ≤ k := by
    by_contra hlt
    have := hbefore k (by omega)
    rw [hhold k hk, hn] at this
    cases this
  have hlt : l < temporaryLimit := by omega
  rcases hl with ⟨-, hfirst⟩ | ⟨fault, hfault, -⟩
  · refine ⟨l, hlt, ?_⟩
    unfold freeTemporary
    rw [hfirst]
    exact if_pos hlt
  · rw [hhold l hlt] at hfault
    cases hfault

theorem savedHere_of_ready (hr : disk.Room dir) (hb : disk.Beside dir name p)
    (h : disk.Ready mode.atomic dir name p) :
    disk.savedHere mode p content =
      ((mode.encode content).map fun _ => (), mode.written content) := by
  have hp : accept p = .ok () := accept_eq_ok_iff.mpr h.fits
  have hd : disk.get? (disk.placeOf p) ≠ some .directory := by
    rw [hb.place]
    exact h.target
  unfold savedHere SaveMode.written
  by_cases ha : mode.atomic = true
  · obtain ⟨k, hk, hfits, hn⟩ := h.temporary ha
    obtain ⟨l, hl, hfree⟩ : ∃ l < temporaryLimit, disk.freeTemporary p = _ :=
      exists_freeTemporary hr hb hk hfits hn
    rw [if_pos ha]
    unfold savedThrough
    rw [hfree]
    simp only [accept_eq_ok_iff.mpr (temporaryPath_fits rfl hk hl hfits), hp, if_neg hd, ha]
    cases mode.encode content <;> rfl
  · rw [if_neg ha]
    unfold savedInPlace
    by_cases hm : mode.isRefusedAtOnce = true
    · obtain ⟨fault, he⟩ : ∃ fault, mode.encode content = .error fault :=
        encode_of_isRefusedAtOnce hm
      rw [if_pos hm, he]
      simp [hm]
    · rw [if_neg hm, hp]
      simp only [if_neg hd]
      cases mode.encode content with
      | error fault => simp [ha, hm, Except.map]
      | ok bytes => rfl

/-- A text that is saved to a ready target gets there if it can be encoded. -/
theorem save_of_ready (wf : disk.WellFormed) (hb : disk.Beside dir name p)
    (habs : p.isAbsolute = true) (mode : SaveMode) (content : String)
    (h : disk.Ready mode.atomic dir name p) :
    ∃ made, Grows dir disk made ∧
      (disk.save mode p content).1 = (mode.encode content).map (fun _ => ()) ∧
      Same (made.withFile (dir ++ [name]) (mode.written content)) (disk.save mode p content).2 := by
  obtain ⟨made, hg, ⟨fault, -, -, hnot⟩ | ⟨-, -, hr, hs, hsame⟩⟩ := save_cases wf hb mode content
  · exact absurd ⟨h.fits.parent habs, h.way⟩ hnot
  have hb' : made.Beside dir name p := hb.of_room hr hg.home
  rw [savedHere_of_ready hr hb' (hg.ready_iff.mpr h)] at hs hsame
  exact ⟨made, hg, hs, hsame⟩

/-- Through a temporary file nothing is written unless there is a place for it. -/
theorem temporary_of_savedThrough (hr : disk.Room dir) (hb : disk.Beside dir name p)
    (h : (disk.savedThrough mode p content).2 ≠ none) : ∃ k < temporaryLimit,
    (temporaryPath disk.homePath p k).Fits ∧ disk.get? (dir ++ [temporaryName name k]) = none := by
  unfold savedThrough at h
  obtain ⟨fault, hfree⟩ | ⟨k, hk, hhold, hfree⟩ := freeTemporary_cases hb <;> rw [hfree] at h
  · exact absurd rfl h
  cases ha : accept (temporaryPath disk.homePath p k) with
  | error fault =>
    simp only [ha] at h
    exact absurd rfl h
  | ok u => exact ⟨k, hk, accept_eq_ok_iff.mp ha, (hb.temporary k).get?_eq_none hr ha hhold⟩

theorem savedHere_of_not_ready (hr : disk.Room dir) (hb : disk.Beside dir name p)
    (h : ¬ disk.Ready mode.atomic dir name p) :
    ∃ fault, disk.savedHere mode p content = (.error fault, none) := by
  rcases savedHere_cases disk mode p content with hs | ⟨hfits, hd, hs⟩
  · exact hs
  · refine absurd ⟨open_of_directory hr.wellFormed hr.directory, hfits, hb.place ▸ hd, ?_⟩ h
    intro ha
    have hsome : (disk.savedHere mode p content).2 ≠ none := by
      rcases hs with ⟨fault, hs⟩ | ⟨bytes, -, hs⟩ <;> rw [hs] <;> exact nofun
    unfold savedHere at hsome
    rw [if_pos ha] at hsome
    exact temporary_of_savedThrough hr hb hsome

/-- Saving makes directories and then writes to a target that is ready, or else fails. -/
theorem save_effect (wf : disk.WellFormed) (hb : disk.Beside dir name p)
    (habs : p.isAbsolute = true) (mode : SaveMode) (content : String) :
    (∃ bytes, disk.Writes mode dir name p content bytes ∧
      Same ((disk.makeDirectories p.parent).2.set (dir ++ [name]) (.file bytes))
        (disk.save mode p content).2) ∨
    ((∀ bytes, ¬ disk.Writes mode dir name p content bytes) ∧
      (∃ fault, (disk.save mode p content).1 = .error fault) ∧
      Same (disk.makeDirectories p.parent).2 (disk.save mode p content).2) := by
  have hm := makeDirectories_made wf hb.parent_straight
  rw [hb.parent_place] at hm
  rw [save_eq]
  rcases hmade : disk.makeDirectories p.parent with ⟨fault | u, made⟩
  · rw [hmade] at hm
    refine .inr ⟨fun bytes hw => ?_, ⟨_, rfl⟩, Same.refl made⟩
    exact nomatch hm.ok_iff.mpr ⟨hw.1.fits.parent habs, hw.1.way⟩
  rw [hmade] at hm
  have hr : made.Room dir := ⟨hm.wellFormed, hm.directory rfl⟩
  have hbm := hb.of_room hr hm.grows.home
  obtain ⟨hresult, hsame⟩ : (made.saveHere mode p content).1 =
      (made.savedHere mode p content).1 ∧ Same _ (made.saveHere mode p content).2 :=
    saveHere_spec hr hbm
  dsimp only
  by_cases hready : made.Ready mode.atomic dir name p
  · rw [savedHere_of_ready hr hbm hready] at hresult hsame
    cases hw : mode.written content with
    | some bytes =>
      rw [hw] at hsame
      exact .inl ⟨bytes, ⟨hm.grows.ready_iff.mp hready, hw⟩, hsame⟩
    | none =>
      obtain ⟨fault, he⟩ := encode_of_written_eq_none hw
      rw [hw] at hsame
      rw [he] at hresult
      refine .inr ⟨fun bytes hb => ?_, ⟨fault, hresult⟩, hsame⟩
      rw [Writes, hw] at hb
      exact nomatch hb.2
  · obtain ⟨fault, hs⟩ : ∃ fault, made.savedHere mode p content = (.error fault, none) :=
      savedHere_of_not_ready hr hbm hready
    rw [hs] at hresult hsame
    exact .inr ⟨fun bytes hw => hready (hm.grows.ready_iff.mpr hw.1), ⟨fault, hresult⟩, hsame⟩

/-- Saving makes all directories that the path reaches, whatever becomes of the file. -/
theorem save_reaches (wf : disk.WellFormed) (hb : disk.Beside dir name p)
    (habs : p.isAbsolute = true) (h : disk.Reaches p.parent place) :
    (disk.save mode p content).2.get? place = some .directory := by
  have hmade : (disk.makeDirectories p.parent).2.get? place = some .directory :=
    (makeDirectories_directory_iff wf hb.parent_straight).mpr (.inr h)
  rcases save_effect wf hb habs mode content with ⟨bytes, hw, hs⟩ | ⟨-, -, hs⟩
  · rw [hs.entry, get?_set_append, if_neg, hmade]
    rintro rfl
    have hg := (makeDirectories_made wf hb.parent_straight).grows
    rw [hb.parent_place] at hg
    rw [hg.get?_eq append_singleton_not_prefix] at hmade
    exact hw.1.target hmade
  · rw [hs.entry, hmade]

end Disk

end DomainCodegen
