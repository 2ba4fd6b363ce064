import DcfsClient.StorageBackend
import DcfsClient.ModifyCases

/-!
# The cases of `ReadFileMeta`

On a linked file `ReadFileMeta` returns what the newest commit recorded, or does not return. A file
that was never flushed has no inode record, and the assertion on the number of previous hashes ends
the process. For a flushed file only a failure of the world, or a key of the wrong length, stops it.
-/

namespace DcfsClient

open Backend

def Commit.fileMeta (P : Platform) (c : Commit) : FileMeta where
  recordname := c.inode.name P
  isize := committedSize c.descs
  aesKey := c.key
  blockmapHash := c.blockmap.name P

section Records

variable {P : Platform} {b : Backend} {d : Bytes} {c : Commit} {cs : List Commit}

theorem CommitOk.isize (h : CommitOk P d cs c) :
    ofLe ((c.inode.pdu P).payloadInTransit.take inodeAesKeyOffset) = committedSize c.descs := by
  simp only [Draft.pdu, h.inode.payload, Option.getD_some]
  rw [List.take_left' (by simp [inodeAesKeyOffset]), ofLe_leBytes]
  exact Nat.mod_eq_of_lt (Nat.mod_lt _ (by decide))

theorem CommitOk.encryptedKey (h : CommitOk P d cs c) :
    ((c.inode.pdu P).payloadInTransit.drop inodeAesKeyOffset).take (aesKeyLen + aesPadLen) =
      P.encrypt P.symmetricMiddlewareKey c.key := by
  simp only [Draft.pdu, h.inode.payload, Option.getD_some]
  rw [List.drop_left' (by simp [inodeAesKeyOffset])]
  exact List.take_of_length_le (le_of_eq h.inode.key_length)

theorem Linked.length_name (hP : P.Lawful) {hist : List Commit} (h : Linked P d b hist) :
    d.length = hashLen := by
  obtain ⟨t, rfl, -⟩ := h.meta_holds
  exact Draft.length_name hP _

theorem latestInode_length (hP : P.Lawful) {hist : List Commit} (h : Linked P d b hist) :
    (latestInode P d hist).length = hashLen := by
  cases hist with
  | nil => exact h.length_name hP
  | cons c cs => exact c.inode.length_name hP

/-- An inode record fits the buffer of `ReadFileMeta`. -/
theorem Linked.inode_fits (hP : P.Lawful) (h : Linked P d b (c :: cs)) :
    (c.inode.bytes P).length ≤ maxInodeRecordSize := by
  have hprev : ∀ x ∈ c.inode.prevhash, x.length = hashLen := by
    rw [h.2.1.inode.prev]
    intro x hx
    simp only [List.mem_cons, List.not_mem_nil, or_false] at hx
    rcases hx with rfl | rfl
    · exact latestInode_length hP h.1
    · exact c.blockmap.length_name hP
  have hfits := hP.header_fits c.inode (by rw [h.2.1.inode.prev]; simp) hprev
  have hpay : (c.inode.payload.getD []).length = 8 + (aesKeyLen + aesPadLen) := by
    rw [h.2.1.inode.payload, Option.getD_some, List.length_append, length_leBytes,
      h.2.1.inode.key_length]
  rw [hpay] at hfits
  exact hfits.trans (by decide)

end Records

section ReadFileMeta

variable {P : Platform} {b : Backend} {d : Bytes} {hist : List Commit}

theorem wp_getInodeName_signed (hP : P.Lawful) {n : Bytes} (hd : b.index d = some n)
    {Q : Bytes → Backend → Prop} {E : Exit ErrT Abort → Backend → Prop} :
    Exec.wp (DCFSMidSim.getInodeName P d (P.sign (P.hash256 d))) Q E b ↔ Q n b := by
  simp [DCFSMidSim.getInodeName, hP.verify_sign, hd]

theorem wp_readFileMeta (hP : P.Lawful) (hb : b.Sound P) (hd : b.index d = some (headName P hist))
    (hl : Linked P d b hist) :
    Exec.wp (StorageBackend.readFileMeta P d)
      (fun m b' => b.Same b' ∧ (b.Calm → b'.Calm) ∧ ∃ c cs, hist = c :: cs ∧ m = c.fileMeta P)
      (fun _ b' => b.Same b' ∧ ∀ c cs, hist = c :: cs → c.key.length = aesKeyLen → ¬ b.Calm) b := by
  simp only [StorageBackend.readFileMeta, Exec.wp_bind, Exec.wp_attempt]
  refine Exec.wp_mono (wp_fallible_cases _) ?_ (fun _ _ h => ⟨h.1, fun _ _ _ _ => h.2⟩)
  rintro _ b₀ ⟨hs₀, hcalm₀⟩
  have hd₀ : b₀.index d = some (headName P hist) := by rw [hs₀.index, hd]
  rw [wp_getInodeName_signed hP hd₀]
  -- a failed read leaves an empty buffer, which has no previous hashes
  have hfailed : ∀ e : ErrT, (P.parse ((Except.error e : Except ErrT Bytes).toOption.getD
      [])).header.prevhash.length ≠ 2 := by
    intro e h
    rw [Except.toOption, Option.getD_none, hP.parse_nil] at h
    cases h
  apply Exec.wp_mono (wp_readRecord_cases d _ _)
  · rintro _ b₁ ⟨hs₁, hcalm₁, slot, hslot, rfl, -⟩
    rw [hs₀.store] at hslot
    cases hist with
    | nil =>
        rw [headName, hb.noEmpty d] at hslot
        cases hslot
    | cons c cs =>
        have hinode := hl.2.2 c.inode (by simp [Commit.drafts])
        have hpdu := hinode.parse_slot hslot
        have hprev : (c.inode.pdu P).header.prevhash = [latestInode P d cs, c.blockmap.name P] :=
          hl.2.1.inode.prev
        have hplain := hP.decrypt_encrypt P.symmetricMiddlewareKey c.key
          (lt_of_le_of_lt (Nat.add_le_add_right hl.2.1.key_le aesPadLen) (by decide))
        simp only [Except.toOption, Option.getD_some, hpdu, hprev, List.length_cons,
          List.length_nil, Exec.wp_check, Exec.wp_orAbort, Exec.wp_bind, Exec.wp_pure,
          DCFSMidSim.decryptAESKey, hl.2.1.encryptedKey, hplain, hl.2.1.isize,
          decide_eq_true_eq, decide_eq_false_iff_not]
        have hs := hs₀.trans hs₁
        refine ⟨fun _ => ⟨?_, by simp⟩, by simp⟩
        intro bm hbm
        simp only [List.getElem?_cons_succ, List.getElem?_cons_zero, Option.some.injEq] at hbm
        subst hbm
        refine ⟨fun _ => ⟨hs, fun hc => hcalm₁ (hcalm₀ hc), c, cs, rfl, rfl⟩, ?_⟩
        intro hkey
        refine ⟨hs, ?_⟩
        intro c' cs' hcons hlen
        injection hcons with hc
        subst hc
        exact absurd hlen hkey
  · rintro x b₁ ⟨hs₁, hfault⟩
    have hs := hs₀.trans hs₁
    have hcause : ∀ c cs, hist = c :: cs → c.key.length = aesKeyLen → ¬ b.Calm := by
      rintro c cs rfl hlen hc
      have hinode := hl.2.2 c.inode (by simp [Commit.drafts])
      have hslot := hb.slot hinode
      rw [← hs₀.store] at hslot
      exact hfault _ hslot (hl.inode_fits hP) (hcalm₀ hc)
    cases x with
    | err e =>
        simp only [Exec.wp_check, decide_eq_true_eq]
        exact ⟨fun h => absurd h (hfailed e), fun _ => ⟨hs, hcause⟩⟩
    | abort k => exact ⟨hs, hcause⟩

end ReadFileMeta

end DcfsClient
