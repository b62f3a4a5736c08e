import DomainCodegen.Output.Writing
import DomainCodegen.Proofs.Disk.Ready

/-!
# Faults that are not of the file

Most faults of saving come from the file or its text. Two escape from that (`Escape`): a path that
holds a NUL is refused by every operation that opens it, and a text cannot be saved in an encoding
that there is not. A look at a path is never such a fault, since nothing is there. A path that has
no bytes is refused first, and that is a fault of the file.
-/

namespace DomainCodegen.Disk

open Text (EncodingFault)

variable {disk after made : Disk} {p source target home : Path} {fault : Fault} {met : SaveFault}
  {mode : SaveMode} {content : String} {bytes : List UInt8} {k : Nat} {kind : Char → Bool}

/-! ## Names beside a file -/

/-- A backup has no other odd characters in its name than the file. -/
theorem any_backupName (hk : Path.IsExotic kind) (name : String) (k : Nat) :
    (backupName name k).toList.any kind = name.toList.any kind := by
  have hbak : ".bak".toList.any kind = false := hk.any_eq_false (by decide)
  have hdot : ".".toList.any kind = false := hk.any_eq_false (by decide)
  have hnumber : (toString k).toList.any kind = false := by
    refine any_eq_false_of_isDigit hk fun c hc => ?_
    rw [Nat.toString_eq_repr, Nat.toList_repr] at hc
    exact Nat.isDigit_of_mem_toDigits (by decide) (by decide) hc
  unfold backupName
  split
  · simp only [String.toList_append, List.any_append, hbak, Bool.or_false]
    exact Bool.or_false _
  · simp only [String.toList_append, List.any_append, hbak, hdot, hnumber, Bool.or_false]

theorem hasAny_temporaryPath (hk : Path.IsExotic kind) (h : (home.join p).hasAny kind = false) :
    (temporaryPath home p k).hasAny kind = false := by
  rw [Path.hasAny_eq_false_iff, temporaryPath_eq]
  intro name hm
  rcases List.mem_append.mp hm with hm | hm
  · exact Path.hasAny_eq_false_iff.mp (Path.hasAny_normal (Path.hasAny_join_parent h)) name hm
  · rw [List.mem_singleton.mp hm, any_temporaryName hk]
    exact Path.any_name (Path.hasAny_of_join h)

theorem hasAny_backupPath (hk : Path.IsExotic kind) (h : p.hasAny kind = false) :
    (backupPath p k).hasAny kind = false := by
  rw [Path.hasAny_eq_false_iff, backupPath_eq]
  intro name hm
  rcases List.mem_append.mp hm with hm | hm
  · exact Path.hasAny_eq_false_iff.mp h name (List.mem_of_mem_dropLast hm)
  · rw [List.mem_singleton.mp hm, any_backupName hk]
    exact Path.any_name h

theorem hasNul_of_temporaryPath (h : (temporaryPath home p k).hasNul = true) :
    (home.join p).hasNul = true := by
  by_contra hno
  have hnone := hasAny_temporaryPath (k := k) Path.isExotic_nul (eq_false_of_ne_true hno)
  exact ne_true_of_eq_false hnone h

theorem hasNul_of_backupPath (h : (backupPath p k).hasNul = true) : p.hasNul = true := by
  by_contra hno
  have hnone := hasAny_backupPath (k := k) Path.isExotic_nul (eq_false_of_ne_true hno)
  exact ne_true_of_eq_false hnone h

theorem hasNul_of_join (h : p.hasNul = true) : (home.join p).hasNul = true := by
  by_contra hno
  exact ne_true_of_eq_false (Path.hasAny_of_join (eq_false_of_ne_true hno)) h

theorem hasNul_of_parent (h : p.parent.hasNul = true) : p.hasNul = true := by
  by_contra hno
  exact ne_true_of_eq_false (Path.hasAny_parent (eq_false_of_ne_true hno)) h

theorem makeMissing_ne_nul (disk : Disk) (p : Path) (place : Location) (names : List String) :
    (disk.makeMissing p place names).1 ≠ .error .nulInPath := by
  induction names generalizing disk p place with
  | nil =>
    intro h
    cases h
  | cons name r ih =>
    unfold makeMissing
    dsimp only
    split
    · exact ih _ _ _
    split
    · intro h
      cases h
    split
    · exact ih _ _ _
    · intro h
      cases h
    · exact ih _ _ _

variable [Surrogates]

/-! ## Operations on the disk -/

theorem locate_of_hasNul (hs : p.hasSurrogate = false) (h : p.hasNul = true) :
    disk.locate p = .error .nulInPath := by
  unfold locate
  rw [unfit?_eq_nul_iff.mpr ⟨hs, h⟩]

theorem hasNul_of_locate (h : disk.locate p = .error .nulInPath) : p.hasNul = true := by
  unfold locate at h
  split at h
  next fault hfault =>
    cases h
    exact (unfit?_eq_nul_iff.mp hfault).2
  split at h
  · cases h
  cases hw : disk.walk (disk.startOf p) p.names <;> rw [hw] at h <;> cases h

theorem look_ne_nul (disk : Disk) (p : Path) : disk.look p ≠ .error .nulInPath := by
  unfold look
  cases disk.locate p with
  | ok place => exact nofun
  | error fault =>
    dsimp only
    split
    · exact nofun
    next habsent =>
      rintro ⟨⟩
      exact habsent rfl

theorem holds_ne_nul (disk : Disk) (p : Path) : disk.holds p ≠ .error .nulInPath := by
  have hl := look_ne_nul disk p
  unfold holds
  cases h : disk.look p with
  | ok entry => exact nofun
  | error fault =>
    rintro ⟨⟩
    exact hl h

theorem isDirectory_ne_nul (disk : Disk) (p : Path) :
    disk.isDirectory p ≠ .error .nulInPath := by
  have hl := look_ne_nul disk p
  unfold isDirectory
  cases h : disk.look p with
  | ok entry => exact nofun
  | error fault =>
    rintro ⟨⟩
    exact hl h

/-- Nothing is at a path with a NUL. -/
theorem holds_of_hasNul (h : p.hasNul = true) : disk.holds p = .ok false := by
  unfold holds look locate
  cases hfault : unfit? p with
  | none =>
    rw [(Path.hasUnfit_eq_false_iff.mp (unfit?_eq_none_iff.mp hfault)).2] at h
    cases h
  | some fault => rcases unfit?_cases hfault with rfl | ⟨error, rfl⟩ <;> rfl

theorem hasNul_of_fileAt (h : disk.fileAt p = .error .nulInPath) :
    p.hasNul = true := by
  unfold fileAt at h
  split at h
  next hl =>
    cases h
    exact hasNul_of_locate hl
  · split at h <;> cases h

theorem hasNul_of_writeFile (h : disk.writeFile p bytes = .error .nulInPath) :
    p.hasNul = true := by
  unfold writeFile at h
  split at h
  next hl =>
    cases h
    exact hasNul_of_locate hl
  · split at h <;> cases h

theorem hasNul_of_createFile (h : disk.createFile p = .error .nulInPath) :
    p.hasNul = true := by
  unfold createFile at h
  split at h
  next hl =>
    cases h
    exact hasNul_of_locate hl
  · split at h <;> cases h

theorem hasNul_of_makeDirectory (h : disk.makeDirectory p = .error .nulInPath) :
    p.hasNul = true := by
  unfold makeDirectory at h
  split at h
  next hl =>
    cases h
    exact hasNul_of_locate hl
  · split at h <;> cases h

/-- A move meets a NUL in one of its two paths only. -/
theorem hasNul_of_moveFile (h : disk.moveFile source target = .error .nulInPath) :
    source.hasNul = true ∨ target.hasNul = true := by
  have hmoved : ∀ {fault : Fault}, fault.ofMove source target = .nulInPath →
      fault = .nulInPath := by
    intro fault hfault
    cases fault with
    | refused reason p => cases hfault
    | moveRefused reason p q => cases hfault
    | notEncodable error => cases hfault
    | nulInPath => rfl
  unfold moveFile at h
  cases hf : disk.fileAt source with
  | error fault =>
    rw [hf] at h
    exact .inl (hasNul_of_fileAt (hf.trans (congrArg _ (hmoved (Except.error.inj h)))))
  | ok bytes =>
  cases ho : disk.locate source with
  | error fault =>
    rw [hf, ho] at h
    exact .inl (hasNul_of_locate (ho.trans (congrArg _ (hmoved (Except.error.inj h)))))
  | ok origin =>
  cases hp : disk.locate target with
  | error fault =>
    rw [hf, ho, hp] at h
    exact .inr (hasNul_of_locate (hp.trans (congrArg _ (hmoved (Except.error.inj h)))))
  | ok place =>
  rw [hf, ho, hp] at h
  dsimp only at h
  split at h
  · cases h
  split at h <;> cases h

theorem hasNul_of_makeDirectories (h : (disk.makeDirectories p).1 = .error .nulInPath) :
    p.hasNul = true := by
  unfold makeDirectories at h
  split at h
  · cases h
  · exact absurd h (makeMissing_ne_nul _ _ _ _)
  next hm =>
    unfold unlessDirectory at h
    split at h
    next met hd =>
      cases h
      exact absurd hd (isDirectory_ne_nul _ _)
    · cases h
    · cases h
      exact hasNul_of_makeDirectory hm

/-- Directories whose path has bytes are refused for a NUL exactly where the path holds one. -/
theorem makeDirectories_nul_iff (hs : p.hasSurrogate = false) :
    (disk.makeDirectories p).1 = .error .nulInPath ↔ p.hasNul = true := by
  refine ⟨hasNul_of_makeDirectories, fun h => ?_⟩
  unfold makeDirectories makeDirectory unlessDirectory isDirectory look
  rw [locate_of_hasNul hs h]
  rfl

theorem firstFree_ne_nul (disk : Disk) (candidate : Nat → Path) :
    disk.firstFree candidate ≠ .error .nulInPath := by
  have hfrom : ∀ fuel index, disk.firstFreeFrom candidate index fuel ≠ .error .nulInPath := by
    intro fuel
    induction fuel with
    | zero => exact fun _ => nofun
    | succ fuel ih =>
      intro index
      unfold firstFreeFrom
      split
      next fault hh =>
        rintro ⟨⟩
        exact holds_ne_nul _ _ hh
      · exact nofun
      · exact ih _
  exact hfrom _ _

/-! ## Saving -/

/-- A fault that does not come from the file or its text: there is a NUL in the path, or there is
no encoding. -/
inductive Escape (whole : Path) (mode : SaveMode) : SaveFault → Prop where
  | nul (h : whole.hasNul = true) : Escape whole mode (.disk .nulInPath)
  | encoding {fault : EncodingFault} (h : mode.encoding = .error fault) :
    Escape whole mode (.noEncoding fault)

omit [Surrogates] in
theorem Escape.of_disk {whole : Path} (hf : (SaveFault.disk fault).isOfFile = false)
    (h : fault = .nulInPath → whole.hasNul = true) : Escape whole mode (.disk fault) := by
  cases fault with
  | refused reason path => cases hf
  | moveRefused reason source target => cases hf
  | notEncodable error => cases hf
  | nulInPath => exact .nul (h rfl)

theorem Escape.of_encode {whole : Path} (h : mode.encode content = .error met)
    (hf : met.isOfFile = false) : Escape whole mode met := by
  unfold SaveMode.encode at h
  split at h
  next hm =>
    cases h
    exact .encoding hm
  next codec _ =>
    cases he : codec.write (Text.codePoints content) <;> rw [he] at h <;> cases h
    cases hf

theorem isOfFile_of_freeTemporary (h : disk.freeTemporary p = .error met) :
    met.isOfFile = true := by
  unfold freeTemporary at h
  split at h
  next fault hfirst =>
    cases h
    cases fault with
    | refused reason path => rfl
    | moveRefused reason source target => rfl
    | notEncodable error => rfl
    | nulInPath => exact absurd hfirst (firstFree_ne_nul _ _)
  · split at h <;> cases h
    rfl

theorem exists_temporary (h : disk.freeTemporary p = .ok source) :
    ∃ k, source = temporaryPath disk.homePath p k := by
  unfold freeTemporary at h
  split at h
  · cases h
  · split at h <;> cases h
    exact ⟨_, rfl⟩

theorem saveThrough_escape (h : disk.saveThrough mode p content = (.error met, after))
    (hf : met.isOfFile = false) : Escape (disk.homePath.join p) mode met := by
  unfold saveThrough at h
  cases ht : disk.freeTemporary p with
  | error fault =>
    rw [ht] at h
    cases h
    rw [isOfFile_of_freeTemporary ht] at hf
    cases hf
  | ok temporary =>
  obtain ⟨k, rfl⟩ := exists_temporary ht
  rw [ht] at h
  dsimp only at h
  split at h
  next hcreate =>
    cases h
    exact .of_disk hf fun he => hasNul_of_temporaryPath (hasNul_of_createFile (he ▸ hcreate))
  split at h
  next hencode =>
    cases h
    exact .of_encode hencode hf
  split at h
  next hwrite =>
    cases h
    exact .of_disk hf fun he => hasNul_of_temporaryPath (hasNul_of_writeFile (he ▸ hwrite))
  split at h
  next hmove =>
    cases h
    refine .of_disk hf fun he => ?_
    rcases hasNul_of_moveFile (he ▸ hmove) with hnul | hnul
    · exact hasNul_of_temporaryPath hnul
    · exact hasNul_of_join hnul
  · cases h

theorem saveInPlace_escape (h : disk.saveInPlace mode p content = (.error met, after))
    (hf : met.isOfFile = false) : Escape (disk.homePath.join p) mode met := by
  unfold saveInPlace at h
  split at h
  · cases he : mode.encode content <;> rw [he] at h <;> cases h
    exact .of_encode he hf
  split at h
  next hopen =>
    cases h
    exact .of_disk hf fun he => hasNul_of_join (hasNul_of_writeFile (he ▸ hopen))
  split at h
  next hencode =>
    cases h
    exact .of_encode hencode hf
  split at h
  next hwrite =>
    cases h
    exact .of_disk hf fun he => hasNul_of_join (hasNul_of_writeFile (he ▸ hwrite))
  · cases h

/-- Saving fails for the file or its text, or for one of the two reasons to escape. -/
theorem save_escape (h : disk.save mode p content = (.error met, after))
    (hf : met.isOfFile = false) : Escape (disk.homePath.join p) mode met := by
  have hhome := (makeDirectories_lasts disk p.parent).homePath_eq
  unfold save at h
  rcases hm : disk.makeDirectories p.parent with ⟨fault | u, made⟩ <;> rw [hm] at h hhome
  · cases h
    refine .of_disk hf fun he => hasNul_of_join (hasNul_of_parent ?_)
    exact hasNul_of_makeDirectories (by rw [hm, he])
  · dsimp only at h hhome
    rw [← hhome]
    split at h
    · exact saveThrough_escape h hf
    · exact saveInPlace_escape h hf

/-- Where no directory is refused first, a path with a NUL is not opened, unless it has no bytes. -/
theorem save_of_hasNul (hs : (disk.homePath.join p).hasSurrogate = false) (h : p.hasNul = true)
    (hmake : p.parent.hasNul = true ∨ (disk.makeDirectories p.parent).1 = .ok ()) :
    ∃ fault, (disk.save mode p content).1 = .error fault ∧ fault.isOfFile = false := by
  have hself : p.hasSurrogate = false := Path.hasAny_of_join hs
  have hnul : (disk.makeDirectories p.parent).1 = .error .nulInPath ↔ p.parent.hasNul = true :=
    makeDirectories_nul_iff (Path.hasAny_parent hself)
  have hhome := (makeDirectories_lasts disk p.parent).homePath_eq
  unfold save
  rcases hm : disk.makeDirectories p.parent with ⟨fault | u, made⟩ <;> rw [hm] at hmake hnul hhome
  · refine ⟨.disk .nulInPath, ?_, rfl⟩
    rw [Except.error.inj (hnul.mpr (hmake.resolve_right nofun))]
  have hparent : ¬ p.parent.hasNul = true := fun hp => nomatch hnul.mpr hp
  have hname := (Path.hasAny_cases h).resolve_left hparent
  dsimp only at hhome ⊢
  split
  · have htemporary : (temporaryPath made.homePath p 0).hasNul = true :=
      Path.hasAny_iff.mpr ⟨temporaryName p.name 0,
        List.mem_append_right _ (List.mem_singleton_self _),
        (any_temporaryName Path.isExotic_nul _ _).trans hname⟩
    have hbytes : (temporaryPath made.homePath p 0).hasSurrogate = false := by
      rw [hhome]
      exact hasAny_temporaryPath Path.isExotic_surrogate hs
    have hfirst : made.freeTemporary p = .ok (temporaryPath made.homePath p 0) := by
      unfold freeTemporary firstFree firstFreeFrom
      rw [holds_of_hasNul htemporary]
      rfl
    refine ⟨.disk .nulInPath, ?_, rfl⟩
    unfold saveThrough createFile
    rw [hfirst]
    dsimp only
    rw [locate_of_hasNul hbytes htemporary]
  · unfold saveInPlace
    split
    next hrefused =>
      unfold SaveMode.isRefusedAtOnce at hrefused
      unfold SaveMode.encode
      cases he : mode.encoding with
      | ok encoding => rw [he] at hrefused; cases hrefused
      | error fault => exact ⟨.noEncoding fault, rfl, rfl⟩
    · refine ⟨.disk .nulInPath, ?_, rfl⟩
      unfold writeFile
      rw [locate_of_hasNul hself h]

theorem saveThrough_noEncoding {other : SaveMode} {why : EncodingFault}
    (he : mode.encoding = .error why) (h : disk.saveThrough other p content = (.ok (), after)) :
    (disk.saveThrough mode p content).1 = .error (.noEncoding why) := by
  have hencode : mode.encode content = .error (.noEncoding why) := by
    unfold SaveMode.encode
    rw [he]
  unfold saveThrough at h ⊢
  cases ht : disk.freeTemporary p with
  | error fault => rw [ht] at h; cases h
  | ok temporary =>
  cases hc : disk.createFile temporary with
  | error fault => simp only [ht, hc] at h; cases h
  | ok created => simp only [hc, hencode]

theorem saveInPlace_noEncoding {other : SaveMode} {why : EncodingFault}
    (he : mode.encoding = .error why) (h : disk.saveInPlace other p content = (.ok (), after)) :
    (disk.saveInPlace mode p content).1 = .error (.noEncoding why) := by
  have hencode : mode.encode content = .error (.noEncoding why) := by
    unfold SaveMode.encode
    rw [he]
  unfold saveInPlace
  by_cases hm : mode.isRefusedAtOnce = true
  · rw [if_pos hm, hencode]
    rfl
  rw [if_neg hm]
  unfold saveInPlace at h
  split at h
  next hr =>
    obtain ⟨fault, hfault⟩ : ∃ fault, other.encode content = .error fault :=
      encode_of_isRefusedAtOnce hr
    rw [hfault] at h
    cases h
  cases hw : disk.writeFile p [] with
  | error fault => rw [hw] at h; cases h
  | ok opened => simp only [hencode]

/-- Where a text can be saved, it cannot be saved in an encoding that there is not. -/
theorem save_noEncoding {other : SaveMode} {why : EncodingFault}
    (ha : other.atomic = mode.atomic)
    (he : mode.encoding = .error why) (h : disk.save other p content = (.ok (), after)) :
    (disk.save mode p content).1 = .error (.noEncoding why) := by
  unfold save at h ⊢
  rcases hm : disk.makeDirectories p.parent with ⟨fault | u, made⟩ <;> rw [hm] at h
  · cases h
  dsimp only at h ⊢
  rw [ha] at h
  split at h
  next hatomic =>
    rw [if_pos hatomic]
    exact saveThrough_noEncoding he h
  next hplace =>
    rw [if_neg hplace]
    exact saveInPlace_noEncoding he h

/-- A backup of what stands at a path fails for the file only. -/
theorem isOfFile_of_backUp (hname : p.name ≠ "") (hh : disk.holds p = .ok true)
    (h : disk.backUp p = (.error met, after)) : met.isOfFile = true := by
  have hno : p.hasNul ≠ true := fun hnul => by
    rw [holds_of_hasNul hnul] at hh
    cases hh
  have hdisk : ∀ {fault : Fault}, fault ≠ .nulInPath → (SaveFault.disk fault).isOfFile = true := by
    intro fault hne
    cases fault with
    | refused reason path => rfl
    | moveRefused reason source target => rfl
    | notEncodable error => rfl
    | nulInPath => exact absurd rfl hne
  unfold backUp at h
  rw [if_neg hname] at h
  split at h
  next hfirst =>
    cases h
    exact hdisk fun he => firstFree_ne_nul _ _ (he ▸ hfirst)
  split at h
  next hread =>
    cases h
    exact hdisk fun he => hno (hasNul_of_fileAt (he ▸ hread))
  split at h
  next hwrite =>
    cases h
    exact hdisk fun he => hno (hasNul_of_backupPath (hasNul_of_writeFile (he ▸ hwrite)))
  · cases h

end DomainCodegen.Disk
