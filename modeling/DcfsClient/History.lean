import DcfsClient.RecordLog

/-!
# The history of a file and what `Modify` does to it

A `Commit` is one successful `Modify`: the descs it was given and the records it left behind. The
history of a file is its commits, newest first, and `Linked` says how a history lies in the store:
three chains, each starting at the capsule's META record, with the blockmap and inode payloads that
the middleware computes. Two of these payloads differ from what their names promise. The blockmap of a
commit lists all data records of the history in the order of writing, and the inode record holds the
number of blocks of this commit alone and, from the second commit on, a key encrypted once more.

`wp_modify` says once and for all what a `Modify` on a linked file can do: add one commit, or leave a
few grounded records behind and the index alone.
-/

namespace DcfsClient

open Backend

/-- One successful `Modify`. `key` is the key its inode record encrypts. -/
structure Commit where
  descs : List BufDesc
  data : List Draft
  blockmap : Draft
  inode : Draft
  key : Bytes

section Latest

variable (P : Platform) (d : Bytes)

def lastName (start : Bytes) (rs : List Draft) : Bytes := rs.getLast?.elim start (·.name P)

def latestData : List Commit → Bytes
  | [] => d
  | c :: _ => lastName P d c.data

def latestBlockmap : List Commit → Bytes
  | [] => d
  | c :: _ => c.blockmap.name P

def latestInode : List Commit → Bytes
  | [] => d
  | c :: _ => c.inode.name P

def headName : List Commit → Bytes
  | [] => []
  | c :: _ => c.inode.name P

def blockNames : List Commit → List Bytes
  | [] => []
  | c :: cs => blockNames cs ++ c.data.map (·.name P)

def DataRun : Bytes → List BufDesc → List Draft → Prop
  | _, [], [] => True
  | prev, desc :: descs, r :: rs =>
      r.type = .datablock ∧ r.prevhash = [prev] ∧ r.payload = some desc.buf ∧
        DataRun (r.name P) descs rs
  | _, _, _ => False

/-- The first block of the encrypted key: what the middleware takes for the key on a re-read. -/
def rewrapKey (key : Bytes) : Bytes :=
  (P.encrypt P.symmetricMiddlewareKey key).take aesKeyLen

def committedSize (descs : List BufDesc) : Nat :=
  u64 (descs.length * defaultBlockSizeInKb * 1024)

structure BlockmapOk (cs : List Commit) (rs : List Draft) (r : Draft) : Prop where
  type : r.type = .blockmap
  prev : r.prevhash = [latestBlockmap P d cs, lastName P d rs]
  payload : r.payload = some (blockNames P cs ++ rs.map (·.name P)).flatten

structure InodeOk (cs : List Commit) (bm : Draft) (descs : List BufDesc) (key : Bytes)
    (r : Draft) : Prop where
  type : r.type = .inode
  prev : r.prevhash = [latestInode P d cs, bm.name P]
  payload : r.payload =
    some (leBytes 8 (committedSize descs) ++ P.encrypt P.symmetricMiddlewareKey key)
  key_length : (P.encrypt P.symmetricMiddlewareKey key).length = aesKeyLen + aesPadLen

structure CommitOk (cs : List Commit) (c : Commit) : Prop where
  descs_ne : c.descs ≠ []
  data : DataRun P (latestData P d cs) c.descs c.data
  blockmap : BlockmapOk P d cs c.data c.blockmap
  inode : InodeOk P d cs c.blockmap c.descs c.key c.inode
  key : ∀ c₀ cs₀, cs = c₀ :: cs₀ → c.key = rewrapKey P c₀.key
  key_le : c.key.length ≤ aesKeyLen

def Commit.drafts (c : Commit) : List Draft := c.data ++ [c.blockmap, c.inode]

def Linked (b : Backend) : List Commit → Prop
  | [] => ∃ t, (Draft.mk .capsuleMeta [] none t).name P = d ∧
      b.Holds P d ⟨.capsuleMeta, [], none, t⟩
  | c :: cs => Linked b cs ∧ CommitOk P d cs c ∧ ∀ r ∈ c.drafts, b.Holds P d r

end Latest

theorem committedSize_eq {descs : List BufDesc} (h : descs.length < 2 ^ 50) :
    committedSize descs = descs.length * midBlockSize := by
  have hkb : defaultBlockSizeInKb = 16 := rfl
  have hmid : midBlockSize = 16384 := rfl
  unfold committedSize
  rw [u64_of_lt (by rw [hkb]; omega), hkb, hmid]
  omega

theorem rewrapKey_length {P : Platform} (hP : P.Lawful) {key : Bytes}
    (hk : key.length = aesKeyLen) : (rewrapKey P key).length = aesKeyLen := by
  have hlen := hP.encrypt_length P.symmetricMiddlewareKey key (by rw [hk]; decide) (by rw [hk]; rfl)
  rw [rewrapKey, List.length_take, hlen, hk]
  rfl

section DataRun

variable {P : Platform}

theorem DataRun.length {prev : Bytes} {descs : List BufDesc} {rs : List Draft}
    (h : DataRun P prev descs rs) : rs.length = descs.length := by
  induction descs generalizing prev rs with
  | nil => cases rs with
    | nil => rfl
    | cons r rs => exact h.elim
  | cons desc descs ih => cases rs with
    | nil => exact h.elim
    | cons r rs => simp [ih h.2.2.2]

theorem DataRun.ne_nil {prev : Bytes} {descs : List BufDesc} {rs : List Draft}
    (h : DataRun P prev descs rs) (hd : descs ≠ []) : rs ≠ [] := by
  intro hr
  have hlen := h.length
  rw [hr] at hlen
  exact hd (List.length_eq_zero_iff.mp hlen.symm)

theorem DataRun.payload {prev : Bytes} {descs : List BufDesc} {rs : List Draft}
    (h : DataRun P prev descs rs) : rs.map Draft.payload = descs.map (fun desc => some desc.buf) := by
  induction descs generalizing prev rs with
  | nil => cases rs with
    | nil => rfl
    | cons r rs => exact h.elim
  | cons desc descs ih => cases rs with
    | nil => exact h.elim
    | cons r rs => simp [h.2.2.1, ih h.2.2.2]

/-- The data record of a desc. -/
theorem DataRun.exists_record {prev : Bytes} {descs : List BufDesc} {rs : List Draft}
    (h : DataRun P prev descs rs) {k : Nat} {desc : BufDesc} (hk : descs[k]? = some desc) :
    ∃ r, rs[k]? = some r ∧ r.payload = some desc.buf := by
  have hpayloads : (rs.map Draft.payload)[k]? = some (some desc.buf) := by
    rw [h.payload, List.getElem?_map, hk]
    rfl
  rw [List.getElem?_map] at hpayloads
  exact Option.map_eq_some_iff.mp hpayloads

theorem DataRun.type {prev : Bytes} {descs : List BufDesc} {rs : List Draft}
    (h : DataRun P prev descs rs) : ∀ r ∈ rs, r.type = .datablock := by
  induction descs generalizing prev rs with
  | nil => cases rs with
    | nil => simp
    | cons r rs => exact h.elim
  | cons desc descs ih => cases rs with
    | nil => exact h.elim
    | cons r rs =>
        intro r' hr'
        rcases List.mem_cons.mp hr' with rfl | hr'
        · exact h.1
        · exact ih h.2.2.2 r' hr'

theorem pduRefs_of_ne_blockmap {r : Draft} (h : r.type ≠ .blockmap) :
    pduRefs (r.pdu P) = r.prevhash := by
  have hm : recordTypeToString r.type ≠ recordTypeToString .blockmap :=
    fun he => h (recordTypeToString_injective he)
  simp [pduRefs, Draft.pdu, Draft.header, hm]

theorem DataRun.grounded {prev : Bytes} {descs : List BufDesc} {rs : List Draft} {s : Bytes → Prop}
    (h : DataRun P prev descs rs) (hprev : s prev) : Grounded P s rs := by
  induction descs generalizing prev rs s with
  | nil => cases rs with
    | nil => trivial
    | cons r rs => exact h.elim
  | cons desc descs ih => cases rs with
    | nil => exact h.elim
    | cons r rs =>
        obtain ⟨htype, hp, -, hrest⟩ := h
        constructor
        · intro x hx
          rw [pduRefs_of_ne_blockmap (by rw [htype]; decide), hp, List.mem_singleton] at hx
          rw [hx]
          exact hprev
        · exact ih hrest (Or.inr rfl)

theorem lastName_mem (start : Bytes) {rs : List Draft} (h : rs ≠ []) :
    ∃ r ∈ rs, lastName P start rs = r.name P := by
  refine ⟨rs.getLast h, List.getLast_mem h, ?_⟩
  simp [lastName, List.getLast?_eq_some_getLast h]

end DataRun

section Linked

variable {P : Platform} {b b' : Backend} {d : Bytes} {hist : List Commit}

theorem Linked.grows (h : Linked P d b hist) (hg : b.Grows P b') : Linked P d b' hist := by
  induction hist with
  | nil =>
      obtain ⟨t, hname, hh⟩ := h
      exact ⟨t, hname, hh.grows hg⟩
  | cons c cs ih => exact ⟨ih h.1, h.2.1, fun r hr => (h.2.2 r hr).grows hg⟩

/-- Every history starts at the META record. -/
theorem Linked.meta_holds (h : Linked P d b hist) : ∃ t,
    (Draft.mk .capsuleMeta [] none t).name P = d ∧ b.Holds P d ⟨.capsuleMeta, [], none, t⟩ := by
  induction hist with
  | nil => exact h
  | cons c cs ih => exact ih h.1

theorem Linked.stored_meta (h : Linked P d b hist) : ∃ w, b.records P d d = some w := by
  obtain ⟨t, hname, hh⟩ := h.meta_holds
  have hrec := hh.record
  rw [hname] at hrec
  exact ⟨_, hrec⟩

theorem Linked.stored_latestInode (h : Linked P d b hist) :
    ∃ w, b.records P d (latestInode P d hist) = some w := by
  cases hist with
  | nil => exact h.stored_meta
  | cons c cs => exact ⟨_, (h.2.2 c.inode (by simp [Commit.drafts])).record⟩

theorem Linked.stored_latestBlockmap (h : Linked P d b hist) :
    ∃ w, b.records P d (latestBlockmap P d hist) = some w := by
  cases hist with
  | nil => exact h.stored_meta
  | cons c cs => exact ⟨_, (h.2.2 c.blockmap (by simp [Commit.drafts])).record⟩

theorem Linked.stored_latestData (h : Linked P d b hist) :
    ∃ w, b.records P d (latestData P d hist) = some w := by
  cases hist with
  | nil => exact h.stored_meta
  | cons c cs =>
      obtain ⟨r, hr, he⟩ := lastName_mem (P := P) d (h.2.1.data.ne_nil h.2.1.descs_ne)
      rw [latestData, he]
      exact ⟨_, (h.2.2 r (by simp [Commit.drafts, hr])).record⟩

theorem Linked.stored_blockNames (h : Linked P d b hist) :
    ∀ x ∈ blockNames P hist, ∃ w, b.records P d x = some w := by
  induction hist with
  | nil => simp [blockNames]
  | cons c cs ih =>
      intro x hx
      rcases List.mem_append.mp hx with hx | hx
      · exact ih h.1 x hx
      · obtain ⟨r, hr, rfl⟩ := List.mem_map.mp hx
        exact ⟨_, (h.2.2 r (by simp [Commit.drafts, hr])).record⟩

theorem Linked.length_blockNames_first {c : Commit} (h : Linked P d b [c]) :
    (blockNames P [c]).length = c.descs.length := by
  have hnames : blockNames P [c] = c.data.map (·.name P) := rfl
  rw [hnames, List.length_map, h.2.1.data.length]

/-- The first commit has a data record for each desc, and the name of the record is an entry of the
blockmap. -/
theorem Linked.exists_entry_first {c : Commit} (h : Linked P d b [c]) {blk : Nat} {desc : BufDesc}
    (hdesc : c.descs[blk]? = some desc) : ∃ r ∈ c.data, b.Holds P d r ∧
      (blockNames P [c])[blk]? = some (r.name P) ∧ r.payload = some desc.buf := by
  obtain ⟨r, hr, hpayload⟩ := h.2.1.data.exists_record hdesc
  have hmem := List.mem_of_getElem? hr
  have hnames : blockNames P [c] = c.data.map (·.name P) := rfl
  refine ⟨r, hmem, h.2.2 r (by simp [Commit.drafts, hmem]), ?_, hpayload⟩
  rw [hnames, List.getElem?_map, hr]
  rfl

theorem length_of_mem_blockNames (hP : P.Lawful) :
    ∀ x ∈ blockNames P hist, x.length = hashLen := by
  induction hist with
  | nil => simp [blockNames]
  | cons c cs ih =>
      intro x hx
      rcases List.mem_append.mp hx with hx | hx
      · exact ih x hx
      · obtain ⟨r, -, rfl⟩ := List.mem_map.mp hx
        exact r.length_name hP

theorem latestData_ne_nil (hP : P.Lawful) {c : Commit} {cs : List Commit}
    (h : CommitOk P d cs c) : latestData P d (c :: cs) ≠ [] := by
  obtain ⟨r, -, he⟩ := lastName_mem (P := P) d (h.data.ne_nil h.descs_ne)
  rw [latestData, he]
  exact r.name_ne_nil hP

theorem length_of_mem_names (hP : P.Lawful) (rs : List Draft) :
    ∀ x ∈ blockNames P hist ++ rs.map (·.name P), x.length = hashLen := by
  intro x hx
  rcases List.mem_append.mp hx with hx | hx
  · exact length_of_mem_blockNames hP x hx
  · obtain ⟨r, -, rfl⟩ := List.mem_map.mp hx
    exact r.length_name hP

/-- A blockmap record refers to the records below it and to the data records of its commit. -/
theorem BlockmapOk.grounded (hP : P.Lawful) {descs : List BufDesc} {rs : List Draft} {bm : Draft}
    (hl : Linked P d b hist) (hrun : DataRun P (latestData P d hist) descs rs) (hne : rs ≠ [])
    (h : BlockmapOk P d hist rs bm) :
    Grounded P (fun x => ∃ w, b.records P d x = some w) (rs ++ [bm]) := by
  apply (hrun.grounded hl.stored_latestData).append
  refine ⟨?_, trivial⟩
  intro x hx
  have hrefs : pduRefs (bm.pdu P) = bm.prevhash ++
      chunks hashLen (blockNames P hist ++ rs.map (·.name P)).flatten := by
    simp only [pduRefs, Draft.pdu, Draft.header, h.type, h.payload, if_true, Option.getD_some]
  rw [hrefs, chunks_flatten (by decide) _ (length_of_mem_names hP rs), h.prev] at hx
  obtain ⟨r, hr, hlast⟩ := lastName_mem (P := P) d hne
  simp only [List.mem_append, List.mem_cons, List.not_mem_nil, or_false, List.mem_map] at hx
  rcases hx with (rfl | rfl) | hx | ⟨r', hr', rfl⟩
  · exact Or.inl hl.stored_latestBlockmap
  · exact Or.inr ⟨r, hr, hlast⟩
  · exact Or.inl (hl.stored_blockNames x hx)
  · exact Or.inr ⟨r', hr', rfl⟩

/-- A commit refers to the records below it and to its own. -/
theorem CommitOk.grounded (hP : P.Lawful) {c : Commit} (h : CommitOk P d hist c)
    (hl : Linked P d b hist) : Grounded P (fun x => ∃ w, b.records P d x = some w) c.drafts := by
  have he : c.drafts = (c.data ++ [c.blockmap]) ++ [c.inode] := by simp [Commit.drafts]
  rw [he]
  apply (h.blockmap.grounded hP hl h.data (h.data.ne_nil h.descs_ne)).append
  refine ⟨?_, trivial⟩
  intro x hx
  rw [pduRefs_of_ne_blockmap (by rw [h.inode.type]; decide), h.inode.prev] at hx
  simp only [List.mem_cons, List.not_mem_nil, or_false] at hx
  rcases hx with rfl | rfl
  · exact Or.inl hl.stored_latestInode
  · exact Or.inr ⟨c.blockmap, by simp, rfl⟩

end Linked

end DcfsClient
