import DcfsClient.FileMetaCases
import DcfsClient.MiddlewareRuns
import DcfsClient.Reference

/-!
# The key of a file across flushes

The inode record carries the file's key, encrypted under the middleware's key. `ReadFileMeta` decrypts
it. `Modify`, which re-reads the record on every flush after the first, takes the first sixteen bytes
of the ciphertext for the key and encrypts those. `rewrapKey` is that mistake, and after `n` flushes it
has been made `n - 1` times.
-/

namespace DcfsClient

open Backend

/-- `key` is what `CreateNew` returned for `d`, and the successful flushes of `d` pass it along. -/
structure OwnKey (d key : Bytes) (run : List Event) : Prop where
  created : ∃ ev ∈ run, ev.response = .created d key
  passed : ∀ ev ∈ succeeded d run, ev.aesKey = key

/-- Whatever the clock says, `ReadFileMeta` recovers the key, and so every block that was encrypted
under it, of a length that is an `int`, can be read. -/
def KeySurvives (P : Platform) (run : List Event) (d key : Bytes) : Prop :=
  ∀ e : Env, (∀ f ∈ e.faults, f = .none) →
    ∃ m b', StorageBackend.readFileMeta P d { current run with env := e } = .ok m b' ∧
      m.aesKey = key ∧ ∀ block, block.length + aesPadLen < 2 ^ 31 →
        P.decrypt m.aesKey (P.encrypt key block) = block

section Keys

variable {P : Platform} {run evs : List Event} {ev : Event} {d key : Bytes} {b : Backend}
  {hist : List Commit}

theorem IsRun.created_key (h : IsRun P (ev :: evs)) (hresp : ev.response = .created d key) :
    key.length = aesKeyLen := by
  have ho := h.served
  have hspec : Exec.wp (ev.request.exec P)
      (fun out _ => ∀ d key, out = .created d key → key.length = aesKeyLen) (fun _ _ => True)
      { current evs with env := ev.env } := by
    cases ev.request with
    | createNew =>
        simp only [Request.exec, Exec.wp_bind, Exec.wp_pure]
        refine Exec.wp_mono (wp_createNew _) ?_ (fun _ _ _ => trivial)
        rintro _ b' ⟨rfl, -⟩ d key hout
        simp only [Response.created.injEq] at hout
        rw [← hout.2, Mem.length_bytesAt]
    | getInodeName hashname sig =>
        simp only [Request.exec, Exec.wp_bind, Exec.wp_pure]
        exact Exec.wp_mono (Exec.wp_run _ _) (by simp) (fun _ _ _ => trivial)
    | modify d descs inodeHash aesKey sig =>
        simp only [Request.exec, Exec.wp_bind, Exec.wp_pure]
        exact Exec.wp_mono (Exec.wp_run _ _) (by simp) (fun _ _ _ => trivial)
  rcases serve_spec ho hspec with hq | ⟨x, hx, -⟩
  · exact hq d key hresp
  · rw [hresp] at hx
    cases x <;> cases hx

theorem OwnKey.length (hrun : IsRun P run) (h : OwnKey d key run) : key.length = aesKeyLen := by
  obtain ⟨ev, hmem, hresp⟩ := h.created
  clear h
  induction run with
  | nil => cases hmem
  | cons ev' evs ih =>
      rcases List.mem_cons.mp hmem with rfl | hmem
      · exact hrun.created_key hresp
      · exact ih hrun.tail hmem

theorem iterate_rewrapKey_length (hP : P.Lawful) (hk : key.length = aesKeyLen) (n : Nat) :
    ((rewrapKey P)^[n] key).length = aesKeyLen := by
  induction n with
  | zero => exact hk
  | succ n ih =>
      rw [Function.iterate_succ_apply']
      exact rewrapKey_length hP ih

/-- Every commit after the first wraps the key once more. -/
theorem Linked.key_eq {c c₀ : Commit} {cs : List Commit} (h : Linked P d b (c :: cs))
    (hlast : (c :: cs).getLast? = some c₀) : c.key = (rewrapKey P)^[cs.length] c₀.key := by
  induction cs generalizing c with
  | nil =>
      rw [List.getLast?_singleton, Option.some.injEq] at hlast
      rw [hlast]
      rfl
  | cons c' cs ih =>
      rw [List.getLast?_cons_of_ne_nil (by simp)] at hlast
      have hrec := ih h.1 hlast
      have hkey := h.2.1.key c' cs rfl
      rw [hkey, hrec, List.length_cons, Function.iterate_succ_apply']

/-- The key in the newest commit of a file flushed with its own key. -/
theorem Tracks.key_eq {c : Commit} {cs : List Commit} (ht : Tracks P d run (c :: cs))
    (hl : Linked P d b (c :: cs)) (hk : key.length = aesKeyLen) (hown : OwnKey d key run) :
    c.key = (rewrapKey P)^[(succeeded d run).length - 1] key := by
  obtain ⟨c₀, hc₀⟩ : ∃ c₀, (c :: cs).getLast? = some c₀ :=
    ⟨_, List.getLast?_eq_some_getLast (by simp)⟩
  have hne : succeeded d run ≠ [] := by
    intro hnil
    have hlen := ht.length
    rw [hnil] at hlen
    cases hlen
  have hlast := List.getLast?_eq_some_getLast hne
  have hfirst := ht.key _ c₀ hlast hc₀
  rw [hown.passed _ (List.getLast_mem hne), List.take_of_length_le (le_of_eq hk)] at hfirst
  rw [hl.key_eq hc₀, hfirst, ht.length, List.length_cons]
  rfl

/-- After `n` flushes the key that `ReadFileMeta` recovers is the file's key if and only if wrapping
it `n - 1` times over gives it back. For `n = 1` that is no condition. -/
theorem keySurvives_iff (hP : P.Lawful) (hrun : ProperRun P run)
    (hd : (createdNames run).count d = 1) (hown : OwnKey d key run)
    (hn : 1 ≤ (succeeded d run).length) :
    KeySurvives P run d key ↔ (rewrapKey P)^[(succeeded d run).length - 1] key = key := by
  have hinv := hrun.inv hP
  obtain ⟨hist, hindex, hl, ht⟩ := hinv.tracks hd
  have hk := hown.length hrun.isRun
  cases hist with
  | nil =>
      rw [ht.length] at hn
      simp at hn
  | cons c cs =>
      have hkey := ht.key_eq hl hk hown
      have hlen : c.key.length = aesKeyLen := by
        rw [hkey]
        exact iterate_rewrapKey_length hP hk _
      -- without failures the call returns what the newest commit holds
      have hread : ∀ e : Env, (∀ f ∈ e.faults, f = .none) → ∃ b',
          StorageBackend.readFileMeta P d { current run with env := e } = .ok (c.fileMeta P) b' := by
        intro e he
        have hs := Same.withEnv (current run) e
        have hspec := wp_readFileMeta (b := { current run with env := e }) hP
          (hinv.sound.same hs) hindex (hl.grows hs.grows)
        obtain ⟨m, b', hok, -, -, c', cs', hcons, rfl⟩ := Exec.exists_ok
          (Exec.wp_mono hspec (fun _ _ h => h) (fun _ _ h => h.2 c cs rfl hlen he))
        injection hcons with hc
        subst hc
        exact ⟨b', hok⟩
      rw [← hkey]
      constructor
      · intro hsurvives
        obtain ⟨m, b', hok, hm, -⟩ := hsurvives {} (by simp)
        obtain ⟨b'', hok'⟩ := hread {} (by simp)
        rw [hok'] at hok
        injection hok with hmeta
        rw [← hm, ← hmeta]
        rfl
      · intro heq e he
        obtain ⟨b', hok⟩ := hread e he
        refine ⟨_, b', hok, heq, ?_⟩
        intro block hlen
        rw [Commit.fileMeta, heq]
        exact hP.decrypt_encrypt key block hlen

end Keys

section Instances

open Reference

theorem ownKey_of_keys {run : List Event} {d key : Bytes}
    (hcreated : ∃ ev ∈ run, ev.response = .created d key)
    (hkeys : ∀ k ∈ (succeeded d run).map Event.aesKey, k = key) : OwnKey d key run :=
  ⟨hcreated, fun ev hev => hkeys ev.aesKey (List.mem_map_of_mem hev)⟩

def keyRun : List Event :=
  replay platform [(.signed platform (fileAt 5) [⟨[1], 0⟩] [] zeroKey, { clock := [6, 7, 8] }),
    (.createNew, { clock := [5] })]

theorem keyRun_proper : ProperRun platform keyRun := properRun_replay _ (by decide +kernel)

theorem keyRun_leaves : (createdNames keyRun).count (fileAt 5) = 1 ∧
    (∃ ev ∈ keyRun, ev.response = .created (fileAt 5) zeroKey) ∧
    (succeeded (fileAt 5) keyRun).map Event.aesKey = [zeroKey] := by decide +kernel

theorem keySurvives_keyRun : KeySurvives platform keyRun (fileAt 5) zeroKey := by
  obtain ⟨hcount, hcreated, hkeys⟩ := keyRun_leaves
  have hown : OwnKey (fileAt 5) zeroKey keyRun := ownKey_of_keys hcreated (by rw [hkeys]; simp)
  have hone : (succeeded (fileAt 5) keyRun).length = 1 := by
    rw [← List.length_map Event.aesKey, hkeys]
    rfl
  have hiff := keySurvives_iff lawful keyRun_proper hcount hown hone.ge
  rw [hiff, hone]
  rfl

def recoveredKey (P : Platform) (b : Backend) (d : Bytes) : Option Bytes :=
  match StorageBackend.readFileMeta P d b with
  | .ok m _ => some m.aesKey
  | .error _ _ => none

theorem recoveredKey_of_ok {P : Platform} {b b' : Backend} {d : Bytes} {m : FileMeta}
    (h : StorageBackend.readFileMeta P d b = .ok m b') : recoveredKey P b d = some m.aesKey := by
  simp [recoveredKey, h]

/-- A file flushed twice with its own key. -/
def keyRunTwice : List Event :=
  let n := ((current keyRun).index (fileAt 5)).getD []
  replay platform [(.signed platform (fileAt 5) [⟨[2], 0⟩] n zeroKey, { clock := [9, 10, 11] }),
    (.signed platform (fileAt 5) [⟨[1], 0⟩] [] zeroKey, { clock := [6, 7, 8] }),
    (.createNew, { clock := [5] })]

theorem keyRunTwice_leaves : (createdNames keyRunTwice).count (fileAt 5) = 1 ∧
    (∃ ev ∈ keyRunTwice, ev.response = .created (fileAt 5) zeroKey) ∧
    (succeeded (fileAt 5) keyRunTwice).map Event.aesKey = [zeroKey, zeroKey] ∧
    recoveredKey platform { current keyRunTwice with env := {} } (fileAt 5) ≠ some zeroKey := by
  decide +kernel

/-- After the second flush another key comes back. -/
theorem keySurvives_keyRunTwice : ProperRun platform keyRunTwice ∧
    (createdNames keyRunTwice).count (fileAt 5) = 1 ∧ OwnKey (fileAt 5) zeroKey keyRunTwice ∧
    1 ≤ (succeeded (fileAt 5) keyRunTwice).length ∧
    ¬ KeySurvives platform keyRunTwice (fileAt 5) zeroKey := by
  have hproper : ProperRun platform keyRunTwice := properRun_replay _ (by decide +kernel)
  obtain ⟨hcount, hcreated, hkeys, hlost⟩ := keyRunTwice_leaves
  have hlength : (succeeded (fileAt 5) keyRunTwice).length = 2 := by
    rw [← List.length_map Event.aesKey, hkeys]
    rfl
  refine ⟨hproper, hcount, ownKey_of_keys hcreated (by rw [hkeys]; simp), by omega, ?_⟩
  intro h
  obtain ⟨m, b', hok, hm, -⟩ := h {} (by simp)
  have hkey := recoveredKey_of_ok hok
  rw [hm] at hkey
  exact hlost hkey

end Instances

end DcfsClient
