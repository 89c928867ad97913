import Trusty.Virtio.TipcDev

/-!
# `trusty_app.c`: the manifest of an app

`load_app_config_options` reads the manifest section of an app's ELF image:
a `uuid_t`, the 256 bytes of the app name, and then the configuration blob of
`u_int` words that fills the rest of the section.  Each configuration key is
followed by its operands: one size for `TRUSTY_APP_CONFIG_KEY_MIN_STACK_SIZE`
and `..._MIN_HEAP_SIZE`, three words for `..._MAP_MEM`.  An `ASSERT` that
fails panics.

The model records every read the function makes, as byte ranges counted from
`sh_offset` (`Run`).  The blob's word count is computed in `u_int`
arithmetic, `(sh_size - sizeof(uuid_t) - 256) / sizeof(u_int)`
(`configEntryCnt`), so a section shorter than the uuid and the name gives
about `2^30` words.

* `configLoop_spec`: the loop reads only words of the blob, and a loop that
  is not stopped by an `ASSERT` ends at exactly `config_entry_cnt`.
* `loadAppConfigOptions_reads`: every read is the uuid, the name or a word
  below `config_entry_cnt`; inside the section when `sh_size` holds the
  uuid and the name.
* `load_app_config_options_bounds`: with a section shorter than that, the
  name copy and the first configuration word lie past its end.
-/

namespace TrustyApp

open Tipc (readU32 readBytes)

/-! ## The model -/

/-- `sizeof(uuid_t)`. -/
def uuidSize : Nat := 16

/-- The bytes copied into `trusty_app->app_name`. -/
def appNameSize : Nat := 256

/-- The offset of the configuration blob in the section. -/
def configBlobOffset : Nat := uuidSize + appNameSize

/-- `PAGE_SIZE`. -/
def pageSize : UInt32 := 4096

/-- `DEFAULT_STACK_SIZE` (`ARCH_DEFAULT_STACK_SIZE` of the arm targets). -/
def defaultStackSize : UInt32 := 4096

/-- `TRUSTY_APP_CONFIG_KEY_MIN_STACK_SIZE`. -/
def trustyAppConfigKeyMinStackSize : UInt32 := 1

/-- `TRUSTY_APP_CONFIG_KEY_MIN_HEAP_SIZE`. -/
def trustyAppConfigKeyMinHeapSize : UInt32 := 2

/-- `TRUSTY_APP_CONFIG_KEY_MAP_MEM`. -/
def trustyAppConfigKeyMapMem : UInt32 := 3

/-- `trusty_app_props_t`; `configBlob` is the offset `config_blob` points at. -/
structure AppProps where
  uuid : List UInt8
  minStackSize : UInt32
  minHeapSize : UInt32
  mapIoMemCnt : UInt32
  configEntryCnt : UInt32
  configBlob : Option Nat

/-- `trusty_app_t`, the fields `load_app_config_options` writes. -/
structure App where
  appName : List UInt8
  props : AppProps

/-- What a run read, as byte ranges `(offset, length)` from `sh_offset` in
the order read, and its result: `none` when an `ASSERT` panicked. -/
structure Run (α : Type) where
  reads : List (Nat × Nat)
  result : Option α

/-- A read of `rng` before the run `r`. -/
def Run.after {α : Type} (rng : Nat × Nat) (r : Run α) : Run α := ⟨rng :: r.reads, r.result⟩

/-- An `ASSERT` that failed. -/
def Run.panic {α : Type} : Run α := ⟨[], none⟩

/-- `ROUNDUP(a, b)` of `stdlib.h`, in `u_int`: `(a + (b - 1)) & ~(b - 1)`. -/
def roundUp (a b : UInt32) : UInt32 := (a + (b - 1)) &&& ~~~(b - 1)

/-- The bytes of word `i` of the configuration blob, `config_blob[i]`. -/
def wordRange (i : Nat) : Nat × Nat := (configBlobOffset + 4 * i, 4)

/-- `config_blob_size / sizeof (u_int)`, with `config_blob_size = sh_size -
sizeof(uuid_t) - 256` wrapping as the `u_int` it is stored in. -/
def configEntryCnt (shSize : UInt32) : UInt32 :=
  (shSize - uuidSize.toUInt32 - appNameSize.toUInt32) / 4

/-- The field a size key sets: `min_stack_size` for `MIN_STACK_SIZE`, else
`min_heap_size`. -/
def AppProps.setSize (key size : UInt32) (p : AppProps) : AppProps :=
  if key = trustyAppConfigKeyMinStackSize then { p with minStackSize := size }
  else { p with minHeapSize := size }

/-- The loop of `load_app_config_options` from word `i`: a size key reads its
operand and rounds it to pages, `MAP_MEM` counts a mapping and skips its
three words; the loop index it ends at and the app, unless an `ASSERT` stops
it. -/
def configLoop (mem : Nat → UInt8) (cnt : Nat) (i : Nat) (app : App) : Run (Nat × App) :=
  if h : i < cnt then
    Run.after (wordRange i) <|
      let key := readU32 mem (wordRange i).1
      if key = trustyAppConfigKeyMinStackSize ∨ key = trustyAppConfigKeyMinHeapSize then
        if cnt - i > 1 then
          Run.after (wordRange (i + 1)) <|
            let size := roundUp (readU32 mem (wordRange (i + 1)).1) 4096
            if size > 0 then configLoop mem cnt (i + 2) { app with props := app.props.setSize key size }
            else Run.panic
        else Run.panic
      else if key = trustyAppConfigKeyMapMem then
        if cnt - i > 3 then
          configLoop mem cnt (i + 4)
            { app with props := { app.props with mapIoMemCnt := app.props.mapIoMemCnt + 1 } }
        else Run.panic
      -- an unknown key: `ASSERT(0)`
      else Run.panic
  else ⟨[], some (i, app)⟩
termination_by cnt - i

/-- `load_app_config_options(trusty_app_image_addr, trusty_app, shdr)`, with
`mem` the image from `sh_offset` on. -/
def loadAppConfigOptions (shSize : UInt32) (mem : Nat → UInt8) (app : App) : Run App :=
  if shSize.toNat < uuidSize then Run.panic
  else
    let props := { app.props with minHeapSize := 4 * pageSize, minStackSize := defaultStackSize }
    let props := { props with uuid := readBytes mem 0 uuidSize }
    let app : App := ⟨readBytes mem uuidSize appNameSize, props⟩
    let cnt := configEntryCnt shSize
    let app := { app with props := { app.props with configEntryCnt := cnt } }
    Run.after (0, uuidSize) <| Run.after (uuidSize, appNameSize) <|
      if cnt = 0 then ⟨[], some app⟩
      else
        let app := { app with props := { app.props with configBlob := some configBlobOffset } }
        let r := configLoop mem cnt.toNat 0 app
        ⟨r.reads, r.result.map Prod.snd⟩

/-! ## What the parser reads -/

@[simp] theorem Run.after_reads {α : Type} (rng : Nat × Nat) (r : Run α) :
    (Run.after rng r).reads = rng :: r.reads := rfl

@[simp] theorem Run.after_result {α : Type} (rng : Nat × Nat) (r : Run α) :
    (Run.after rng r).result = r.result := rfl

@[simp] theorem Run.panic_reads {α : Type} : (Run.panic : Run α).reads = [] := rfl

@[simp] theorem Run.panic_result {α : Type} : (Run.panic : Run α).result = none := rfl

/-- Every read of `rs` is a word `j` of the blob with `i ≤ j < cnt`. -/
def WordsFrom (i cnt : Nat) (rs : List (Nat × Nat)) : Prop :=
  ∀ r ∈ rs, ∃ j, i ≤ j ∧ j < cnt ∧ r = wordRange j

theorem WordsFrom.nil (i cnt : Nat) : WordsFrom i cnt [] := fun _ h => absurd h List.not_mem_nil

theorem WordsFrom.cons {i j cnt : Nat} {rs : List (Nat × Nat)} (hij : i ≤ j) (hj : j < cnt)
    (h : WordsFrom i cnt rs) : WordsFrom i cnt (wordRange j :: rs) := by
  intro r hr
  rcases List.mem_cons.mp hr with rfl | hr
  · exact ⟨j, hij, hj, rfl⟩
  · exact h r hr

theorem WordsFrom.mono {i i' cnt : Nat} {rs : List (Nat × Nat)} (h : WordsFrom i' cnt rs)
    (hi : i ≤ i') : WordsFrom i cnt rs := by
  intro r hr
  obtain ⟨j, hj, hjc, rfl⟩ := h r hr
  exact ⟨j, by omega, hjc, rfl⟩

/-- The configuration loop reads words `i` to below `cnt` only, and a loop
that no `ASSERT` stops leaves at exactly `cnt`: each key consumes its
operands, and the guards `cnt - i > 1`, `cnt - i > 3` keep them before `cnt`. -/
theorem configLoop_spec (mem : Nat → UInt8) (cnt i : Nat) (app : App) (hi : i ≤ cnt) :
    WordsFrom i cnt (configLoop mem cnt i app).reads ∧
      ∀ k a, (configLoop mem cnt i app).result = some (k, a) → k = cnt := by
  fun_induction configLoop mem cnt i app with
  | case1 i app hlt ih2 ih4 =>
    dsimp only at ih2 ih4 ⊢
    split_ifs with hsize hop hpos hmap hop3
    · -- a size key and its operand, then the loop from `i + 2`
      obtain ⟨hr, hk⟩ := ih2 hop (by omega)
      exact ⟨.cons (le_refl i) hlt (.cons (by omega) (by omega) (hr.mono (by omega))), hk⟩
    · -- `ASSERT(size > 0)`
      exact ⟨.cons (le_refl i) hlt (.cons (by omega) (by omega) (.nil i cnt)), by simp⟩
    · -- `ASSERT(cnt - i > 1)`
      exact ⟨.cons (le_refl i) hlt (.nil i cnt), by simp⟩
    · -- `MAP_MEM` and its three words, then the loop from `i + 4`
      obtain ⟨hr, hk⟩ := ih4 hop3 (by omega)
      exact ⟨.cons (le_refl i) hlt (hr.mono (by omega)), hk⟩
    · -- `ASSERT(cnt - i > 3)`
      exact ⟨.cons (le_refl i) hlt (.nil i cnt), by simp⟩
    · -- an unknown key
      exact ⟨.cons (le_refl i) hlt (.nil i cnt), by simp⟩
  | case2 i app hge =>
    refine ⟨.nil i cnt, fun k a h => ?_⟩
    simp only [Option.some.injEq, Prod.mk.injEq] at h
    omega

theorem configLoop_reads_first {mem : Nat → UInt8} {cnt i : Nat} {app : App} (h : i < cnt) :
    wordRange i ∈ (configLoop mem cnt i app).reads := by
  rw [configLoop, dif_pos h, Run.after_reads]
  exact List.mem_cons_self

/-- `config_entry_cnt` as a number: `sh_size - 272` wrapped to 32 bits, over
four. -/
theorem configEntryCnt_toNat (shSize : UInt32) :
    (configEntryCnt shSize).toNat = (shSize.toNat + 2 ^ 32 - configBlobOffset) % 2 ^ 32 / 4 := by
  have h := shSize.toNat_lt
  have h16 : (Nat.toUInt32 16).toNat = 16 := rfl
  have h256 : (Nat.toUInt32 256).toNat = 256 := rfl
  simp only [configEntryCnt, UInt32.toNat_div, UInt32.toNat_sub, configBlobOffset, uuidSize,
    appNameSize, h16, h256]
  change _ / 4 = _
  omega

/-- The reads of `load_app_config_options`: the uuid, the name, and words of
the blob below `config_entry_cnt`; once the uuid is there, the name is read
whatever `sh_size` is, and so is the first word when the count is not zero. -/
theorem loadAppConfigOptions_reads (shSize : UInt32) (mem : Nat → UInt8) (app : App) :
    (∀ r ∈ (loadAppConfigOptions shSize mem app).reads,
      r = (0, uuidSize) ∨ r = (uuidSize, appNameSize) ∨
        ∃ j, j < (configEntryCnt shSize).toNat ∧ r = wordRange j) ∧
    (uuidSize ≤ shSize.toNat →
      (uuidSize, appNameSize) ∈ (loadAppConfigOptions shSize mem app).reads ∧
        (0 < (configEntryCnt shSize).toNat →
          wordRange 0 ∈ (loadAppConfigOptions shSize mem app).reads)) := by
  by_cases hshort : shSize.toNat < uuidSize
  · -- `ASSERT(shdr->sh_size >= sizeof(uuid_t))`
    simp only [loadAppConfigOptions, if_pos hshort, Run.panic_reads, List.not_mem_nil]
    exact ⟨fun _ h => h.elim, fun h => absurd h (by omega)⟩
  · simp only [loadAppConfigOptions, if_neg hshort, Run.after_reads, List.mem_cons]
    by_cases hcnt : configEntryCnt shSize = 0
    · have h0 : (configEntryCnt shSize).toNat = 0 := by rw [hcnt]; rfl
      simp only [hcnt, if_true, List.not_mem_nil, or_false]
      refine ⟨fun r hr => ?_, fun _ => ⟨by simp, fun h => absurd h (by simp)⟩⟩
      rcases hr with hr | hr
      · exact .inl hr
      · exact .inr (.inl hr)
    · have hpos : 0 < (configEntryCnt shSize).toNat := by
        rcases Nat.eq_zero_or_pos (configEntryCnt shSize).toNat with h | h
        · exact absurd (UInt32.toNat_inj.mp h) hcnt
        · exact h
      simp only [hcnt, if_false]
      have hloop : ∀ a, WordsFrom 0 (configEntryCnt shSize).toNat
          (configLoop mem (configEntryCnt shSize).toNat 0 a).reads :=
        fun a => (configLoop_spec mem _ 0 a (Nat.zero_le _)).1
      refine ⟨fun r hr => ?_, fun _ => ⟨by simp, fun _ => .inr (.inr ?_)⟩⟩
      · rcases hr with hr | hr | hr
        · exact .inl hr
        · exact .inr (.inl hr)
        · obtain ⟨j, -, hj, rfl⟩ := hloop _ r hr
          exact .inr (.inr ⟨j, hj, rfl⟩)
      · exact configLoop_reads_first hpos

/-- The bounds of `load_app_config_options`, for every section size and
contents.  Every read is the uuid, the name or a word of the blob below
`config_entry_cnt`, and a loop that no `ASSERT` stops ends at exactly
`config_entry_cnt`.  A section holding the uuid and the name is read inside
`[sh_offset, sh_offset + sh_size)`.  One holding the uuid but not all of the
name is read past its end: the 256 bytes of the name are copied regardless,
`config_blob_size` wraps to give about `2^30` words, and word `0` of the blob,
at offset 272, is read. -/
theorem load_app_config_options_bounds (shSize : UInt32) (mem : Nat → UInt8) (app : App) :
    (∀ r ∈ (loadAppConfigOptions shSize mem app).reads,
      r = (0, uuidSize) ∨ r = (uuidSize, appNameSize) ∨
        ∃ j, j < (configEntryCnt shSize).toNat ∧ r = wordRange j) ∧
    (∀ app' k a, (configLoop mem (configEntryCnt shSize).toNat 0 app').result = some (k, a) →
      k = (configEntryCnt shSize).toNat) ∧
    (configBlobOffset ≤ shSize.toNat →
      ∀ r ∈ (loadAppConfigOptions shSize mem app).reads, r.1 + r.2 ≤ shSize.toNat) ∧
    (uuidSize ≤ shSize.toNat → shSize.toNat < configBlobOffset →
      (uuidSize, appNameSize) ∈ (loadAppConfigOptions shSize mem app).reads ∧
        (configEntryCnt shSize).toNat = (shSize.toNat + 2 ^ 32 - configBlobOffset) / 4 ∧
        wordRange 0 ∈ (loadAppConfigOptions shSize mem app).reads) := by
  have hreads := loadAppConfigOptions_reads shSize mem app
  have hcnt := configEntryCnt_toNat shSize
  have hlt := shSize.toNat_lt
  refine ⟨hreads.1, fun app' k a h => (configLoop_spec mem _ 0 app' (Nat.zero_le _)).2 k a h,
    fun hsz r hr => ?_, fun h16 hshort => ?_⟩
  · -- the blob's words end at `272 + 4 * config_entry_cnt ≤ sh_size`
    have hmod : (shSize.toNat + 2 ^ 32 - configBlobOffset) % 2 ^ 32 =
        shSize.toNat - configBlobOffset := by
      rw [show shSize.toNat + 2 ^ 32 - configBlobOffset = shSize.toNat - configBlobOffset + 2 ^ 32
        by omega, Nat.add_mod_right, Nat.mod_eq_of_lt (by omega)]
    rw [hmod] at hcnt
    rcases hreads.1 r hr with rfl | rfl | ⟨j, hj, rfl⟩
    · simp only [uuidSize, configBlobOffset, appNameSize] at hsz ⊢; omega
    · simp only [uuidSize, configBlobOffset, appNameSize] at hsz ⊢; omega
    · simp only [wordRange, configBlobOffset, uuidSize, appNameSize] at hsz hcnt hj ⊢; omega
  · -- `sh_size - 272` wraps below zero
    have hmod : (shSize.toNat + 2 ^ 32 - configBlobOffset) % 2 ^ 32 =
        shSize.toNat + 2 ^ 32 - configBlobOffset :=
      Nat.mod_eq_of_lt (by omega)
    rw [hmod] at hcnt
    have hpos : 0 < (configEntryCnt shSize).toNat := by
      simp only [configBlobOffset, uuidSize, appNameSize] at hcnt; omega
    exact ⟨(hreads.2 h16).1, hcnt, (hreads.2 h16).2 hpos⟩

/-- A manifest holding only the uuid: the name is copied from the 256 bytes
after it, and the blob is taken to have `2^30 - 64` words, starting with the
word at offset 272. -/
theorem load_app_config_options_uuid_only :
    (uuidSize, appNameSize) ∈
        (loadAppConfigOptions 16 (fun _ => 0) ⟨[], ⟨[], 0, 0, 0, 0, none⟩⟩).reads ∧
      (configEntryCnt 16).toNat = 1073741760 ∧
      wordRange 0 ∈ (loadAppConfigOptions 16 (fun _ => 0) ⟨[], ⟨[], 0, 0, 0, 0, none⟩⟩).reads := by
  obtain ⟨hname, hcnt, hword⟩ :=
    (load_app_config_options_bounds 16 (fun _ => 0) ⟨[], ⟨[], 0, 0, 0, 0, none⟩⟩).2.2.2
      (by decide) (by decide)
  exact ⟨hname, hcnt, hword⟩

end TrustyApp
