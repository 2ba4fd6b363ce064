import DcfsClient.CrashConsistency
import DcfsClient.LinearHistory

/-!
# The name of an inode record commits to its file

Two clients work on two stores that have nothing to do with each other. When the index of one and the
index of the other hold the same inode name, both stores hold the same file: the same inode record, the
same blockmap and data records, and the same records all the way back to the META record.
-/

namespace DcfsClient

open Backend LinkedStore

/-- The inode record `n` of file `d` has a blockmap record and leads back to the META record, and
whatever one store reaches from it lies in both, equal in header and payload. -/
structure SameFile (s s' : Bytes → Option CapsulePDU) (d n : Bytes) : Prop where
  inode : ∃ p bm q, s n = some p ∧ p.header.msgtype = recordTypeToString .inode ∧
    prev1 p = some bm ∧ s bm = some q ∧ q.header.msgtype = recordTypeToString .blockmap
  root : Reaches pduRefs s n d ∧ ∃ p, s d = some p ∧
    p.header.msgtype = recordTypeToString .capsuleMeta
  equal : ∀ x, Reaches pduRefs s n x ∨ Reaches pduRefs s' n x →
    ∃ p, s x = some p ∧ s' x = some p

section Commitment

variable {P P' : Platform} {b b' : Backend} {d d' : Bytes} {hist hist' : List Commit}

theorem prev0_mem_pduRefs (p : CapsulePDU) (m : Bytes) (h : prev0 p = some m) : m ∈ pduRefs p :=
  List.mem_append_left _ (List.mem_of_getElem? h)

/-- Two drafts of one name, each held by a store, are the same record. -/
theorem pdu_eq_of_holds (hP : P.Lawful) (hshare : P.SharesNames P')
    (hfree : P.CollisionFree (b.hashed ++ b'.hashed)) {r r' : Draft} (hr : b.Holds P d r)
    (hr' : b'.Holds P' d' r') (h : r.name P = r'.name P') : r = r' ∧ r.pdu P = r'.pdu P' := by
  obtain ⟨rfl, haddr⟩ := Draft.eq_of_shared_name hP hshare hfree
    (fun _ hx => List.mem_append_left _ (hr.strings hx))
    (fun _ hx => List.mem_append_right _ (hr'.strings hx)) h
  refine ⟨rfl, ?_⟩
  simp only [Draft.pdu, h, Draft.header, haddr, hshare.hash256]

/-- Sound stores never disagree about a name. -/
theorem records_agree (hP : P.Lawful) (hshare : P.SharesNames P')
    (hfree : P.CollisionFree (b.hashed ++ b'.hashed)) (hb : b.Sound P) (hb' : b'.Sound P')
    (n : Bytes) (p q : CapsulePDU) (hp : b.records P d n = some p)
    (hq : b'.records P' d' n = some q) : p = q := by
  obtain ⟨r, hr, hname, rfl, -⟩ := hb.named d n p hp
  obtain ⟨r', hr', hname', rfl, -⟩ := hb'.named d' n q hq
  exact (pdu_eq_of_holds hP hshare hfree hr hr' (hname.trans hname'.symm)).2

/-- Two histories with the same newest inode record are histories of the same file: going back one
commit in both keeps the names equal, and both end at a META record. -/
theorem Linked.file_eq (hP : P.Lawful) (hshare : P.SharesNames P')
    (hfree : P.CollisionFree (b.hashed ++ b'.hashed)) (h : Linked P d b hist)
    (h' : Linked P' d' b' hist') (he : latestInode P d hist = latestInode P' d' hist') :
    d = d' := by
  induction hist generalizing hist' with
  | nil =>
      cases hist' with
      | nil => exact he
      | cons c' cs' =>
          obtain ⟨t, hname, hh⟩ := h
          have hc' := h'.2.2 c'.inode (by simp [Commit.drafts])
          have hr := (pdu_eq_of_holds hP hshare hfree hh hc' (hname.trans he)).1
          have htype := h'.2.1.inode.type
          rw [← hr] at htype
          cases htype
  | cons c cs ih =>
      have hc := h.2.2 c.inode (by simp [Commit.drafts])
      cases hist' with
      | nil =>
          obtain ⟨t, hname, hh⟩ := h'
          have hr := (pdu_eq_of_holds hP hshare hfree hc hh (he.trans hname.symm)).1
          have htype := h.2.1.inode.type
          rw [hr] at htype
          cases htype
      | cons c' cs' =>
          have hc' := h'.2.2 c'.inode (by simp [Commit.drafts])
          have hr := (pdu_eq_of_holds hP hshare hfree hc hc' he).1
          have hprev : [latestInode P d cs, c.blockmap.name P] =
              [latestInode P' d' cs', c'.blockmap.name P'] := by
            rw [← h.2.1.inode.prev, ← h'.2.1.inode.prev, hr]
          exact ih h.1 h'.1 (List.cons.inj hprev).1

theorem Linked.inode_blockmap {c : Commit} {cs : List Commit} (h : Linked P d b (c :: cs)) :
    ∃ p bm q, b.records P d (c.inode.name P) = some p ∧
      p.header.msgtype = recordTypeToString .inode ∧ prev1 p = some bm ∧
      b.records P d bm = some q ∧ q.header.msgtype = recordTypeToString .blockmap := by
  have hinode := h.2.2 c.inode (by simp [Commit.drafts])
  have hblockmap := h.2.2 c.blockmap (by simp [Commit.drafts])
  refine ⟨_, c.blockmap.name P, _, hinode.record, ?_, ?_, hblockmap.record, ?_⟩
  · simp only [Draft.pdu, Draft.header, h.2.1.inode.type]
  · simp [prev1, Draft.pdu, Draft.header, h.2.1.inode.prev]
  · simp only [Draft.pdu, Draft.header, h.2.1.blockmap.type]

theorem Linked.sameFile (hP : P.Lawful) (hshare : P.SharesNames P')
    (hfree : P.CollisionFree (b.hashed ++ b'.hashed)) (hb : b.Sound P) (hb' : b'.Sound P')
    {c c' : Commit} {cs cs' : List Commit} (h : Linked P d b (c :: cs))
    (h' : Linked P' d' b' (c' :: cs')) (he : c.inode.name P = c'.inode.name P') :
    d = d' ∧ SameFile (b.records P d) (b'.records P' d') d (c.inode.name P) := by
  have hagree : ∀ l v w, b.records P d l = some v → b'.records P' d' l = some w → v = w :=
    records_agree hP hshare hfree hb hb'
  have hp := (h.2.2 c.inode (by simp [Commit.drafts])).record
  have hq := (h'.2.2 c'.inode (by simp [Commit.drafts])).record
  rw [← he] at hq
  have hpq := hagree _ _ _ hp hq
  rw [← hpq] at hq
  refine ⟨h.file_eq hP hshare hfree h' he, h.inode_blockmap, ⟨?_, ?_⟩, ?_⟩
  · exact h.inodes.reaches prev0_mem_pduRefs .refl
  · obtain ⟨p, hp, -, htype⟩ := h.stop
    exact ⟨p, hp, htype⟩
  · rintro x (hx | hx)
    · exact hx.shared (hb.closed d) (hb'.closed d') hagree ⟨_, hp, hq⟩
    · have hagree' : ∀ l v w, b'.records P' d' l = some v → b.records P d l = some w → v = w :=
        fun l v w hv hw => (hagree l w v hw hv).symm
      obtain ⟨p, hp', hq'⟩ := hx.shared (hb'.closed d') (hb.closed d) hagree' ⟨_, hq, hp⟩
      exact ⟨p, hq', hp'⟩

/-- In any two runs, on stores of their own, files with the same inode name are the same file with the
same records. -/
theorem inodeName_commits (hP : P.Lawful) (hP' : P'.Lawful) (hshare : P.SharesNames P')
    {run run' : List Event} (hrun : IsRun P run) (hrun' : IsRun P' run') (hon : OnCreated run)
    (hon' : OnCreated run')
    (hfree : P.CollisionFree ((current run).hashed ++ (current run').hashed)) {n : Bytes}
    (hn : n ≠ []) (hd : (current run).index d = some n) (hd' : (current run').index d' = some n) :
    d = d' ∧ SameFile ((current run).records P d) ((current run').records P' d') d n := by
  have hsub' : (current run').hashed ⊆ (current run).hashed ++ (current run').hashed :=
    List.subset_append_right _ _
  have hfree' : P'.CollisionFree (current run').hashed := by
    intro x hx y hy he
    rw [hshare.hash256] at he
    exact hfree x (hsub' hx) y (hsub' hy) he
  have hinv := ProperRun.inv hP ⟨hrun, hon, hfree.of_subset (List.subset_append_left _ _)⟩
  have hinv' := ProperRun.inv hP' ⟨hrun', hon', hfree'⟩
  obtain ⟨hist, he, hl⟩ := hinv.index_some hd
  obtain ⟨hist', he', hl'⟩ := hinv'.index_some hd'
  cases hist with
  | nil => exact absurd he hn
  | cons c cs =>
      cases hist' with
      | nil => exact absurd he' hn
      | cons c' cs' =>
          rw [he]
          exact hl.sameFile hP hshare hfree hinv.sound hinv'.sound hl' (he.symm.trans he')

end Commitment

section Instances

open Reference

def aloneRun : List Event := replay platform [firstFlush, (.createNew, { clock := [5] })]

def besideRun : List Event :=
  replay platform [(.signed platform (fileAt 20) [⟨[9], 0⟩] [] zeroKey, { clock := [21, 22, 23] }),
    firstFlush, (.createNew, { clock := [5] }), (.createNew, { clock := [20] })]

def sharedInode : Bytes := ((current aloneRun).index (fileAt 5)).getD []

/-- The two runs create files before they use them, hash no two strings to one name, and leave the
file at the same inode record. -/
theorem besideRun_leaves : (∀ ev ∈ aloneRun.tail, ev.response.isDied = false) ∧
    (∀ ev ∈ besideRun.tail, ev.response.isDied = false) ∧ OnCreated aloneRun ∧ OnCreated besideRun ∧
    (((current aloneRun).hashed ++ (current besideRun).hashed).dedup.map platform.hash256).Nodup ∧
    sharedInode ≠ [] ∧ (current aloneRun).index (fileAt 5) = some sharedInode ∧
    (current besideRun).index (fileAt 5) = some sharedInode := by decide +kernel

theorem inodeName_commits_besideRun : fileAt 5 = fileAt 5 ∧
    SameFile ((current aloneRun).records platform (fileAt 5))
      ((current besideRun).records platform (fileAt 5)) (fileAt 5) sharedInode := by
  obtain ⟨halone, hbeside, hon, hon', hnodup, hne, hindex, hindex'⟩ := besideRun_leaves
  have hrun : IsRun platform aloneRun := isRun_replay _ halone
  have hrun' : IsRun platform besideRun := isRun_replay _ hbeside
  exact inodeName_commits lawful lawful ⟨rfl, rfl⟩ hrun hrun' hon hon' (.of_nodup hnodup) hne hindex
    hindex'

end Instances

end DcfsClient
