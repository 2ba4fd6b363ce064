import DcfsClient.ServerList

/-!
# Which configurations the constructor recovers

As long as every comma stands before position `2 ^ 31 - 1` and the last address is shorter than that, no
position is cut on its way through an `int`, and the loop takes one item after another off the text.
Otherwise the first comma behind that position, or the colon of the last item, is misplaced. Either the
misplaced comma ends the loop too early, or it sends the loop back, where it finds the same comma again,
or it leads to a position behind the string; and a misplaced colon cuts the wrong address.

The sockets are a matter of room and of addresses that ZeroMQ accepts.
-/

namespace DcfsClient

open CString

section Results

variable {ε α β : Type} {x : Except ε α} {f : α → Except ε β}

theorem except_bind_of_ok {a : α} (h : x = .ok a) : (x >>= f) = f a := by
  rw [h]
  rfl

theorem except_bind_eq_ok {b : β} (h : (x >>= f) = .ok b) : ∃ a, x = .ok a ∧ f a = .ok b := by
  cases x with
  | error e => cases h
  | ok a => exact ⟨a, rfl, h⟩

end Results

namespace ClientComm

theorem std_eq_ok {α : Type} {x : Except StdException α} {a : α} : std x = .ok a ↔ x = .ok a := by
  cases x with
  | error e => simp [std, Except.mapError]
  | ok b => simp [std, Except.mapError]

theorem intResult_eq_ok {n m : Int} : intResult n = .ok m ↔ n = m ∧ minInt ≤ n ∧ n ≤ maxInt := by
  unfold intResult
  split
  · rename_i h
    simp [h]
  · rename_i h
    simp [h]

/-! ## One item -/

section Item

variable {p : Bytes × Nat}

theorem drop_renderItem (p : Bytes × Nat) : (renderItem p).drop 0 = p.1 ++ 58 :: digitText 10 p.2 := rfl

theorem length_renderItem (p : Bytes × Nat) :
    (renderItem p).length = p.1.length + 1 + (digitText 10 p.2).length := by
  simp only [renderItem, List.length_append, List.length_cons]
  omega

theorem find_colon (hp : ValidServer p) : find (renderItem p) 58 0 = p.1.length := by
  rw [find_of_split (drop_renderItem p) hp.colon, Nat.zero_add]

theorem parseItem_renderItem (hp : ValidServer p) (hsmall : p.1.length + 1 < 2 ^ 31)
    (hlen : (renderItem p).length < 2 ^ 63) : parseItem (renderItem p) = .ok (p.1, (p.2 : Int)) := by
  have hpos : toInt (find (renderItem p) 58 0) = p.1.length := by
    rw [find_colon hp, toInt_natCast (by omega)]
  have hfirst : substr (renderItem p) 0 (toSize (p.1.length : Int)) = .ok p.1 := by
    rw [substr_of_le (Nat.zero_le _), toSize_natCast (by omega)]
    simp [renderItem]
  have hbehind : toSize ((p.1.length : Int) + 1) = p.1.length + 1 :=
    toSize_natCast (n := p.1.length + 1) hsmall
  have hsecond : substr (renderItem p) (toSize ((p.1.length : Int) + 1)) npos =
      .ok (digitText 10 p.2) := by
    rw [hbehind, substr_npos (by rw [length_renderItem]; omega) hlen]
    simp [renderItem, List.drop_append]
  have hcount := stoi_digitText (n := p.2) (by have := hp.ports; unfold maxInt; omega)
  unfold parseItem
  rw [hpos]
  rw [except_bind_of_ok (std_eq_ok.mpr hfirst),
    except_bind_of_ok (intResult_eq_ok.mpr ⟨rfl, by unfold minInt; omega, by unfold maxInt; omega⟩),
    except_bind_of_ok (std_eq_ok.mpr hsecond), except_bind_of_ok (std_eq_ok.mpr hcount)]
  rfl

/-- A colon that is too far in the item cuts off something that is not the address. -/
theorem parseItem_of_long (hp : ValidServer p) (hlong : 2 ^ 31 ≤ p.1.length + 1)
    (hlen : (renderItem p).length < 2 ^ 63) {r : Bytes × Int} (h : parseItem (renderItem p) = .ok r) :
    r.1 ≠ p.1 := by
  unfold parseItem at h
  dsimp only at h
  rw [find_colon hp] at h
  obtain ⟨ip, hip, h⟩ := except_bind_eq_ok h
  obtain ⟨behind, hbehind, h⟩ := except_bind_eq_ok h
  obtain ⟨digits, -, h⟩ := except_bind_eq_ok h
  obtain ⟨count, -, h⟩ := except_bind_eq_ok h
  cases h
  obtain ⟨-, -, hmax⟩ := intResult_eq_ok.mp hbehind
  rw [std_eq_ok, substr_of_le (Nat.zero_le _), Except.ok.injEq] at hip
  have hitem := length_renderItem p
  have hrange := toInt_range p.1.length
  -- the position is not the largest `int`, so it has moved
  have hbig : maxInt < p.1.length := by
    by_contra hle
    have heq := toInt_of_small (n := p.1.length) (by unfold minInt; omega) (not_lt.mp hle)
    unfold maxInt at *
    omega
  have hmoved := toInt_add_le hbig
  intro heq
  have hcut := congrArg List.length (hip.trans heq)
  rw [List.length_take, List.drop_zero] at hcut
  rcases lt_or_ge (toInt p.1.length) 0 with hneg | hpos
  · have hfar := toSize_of_neg hrange.1 hneg
    omega
  · rw [toSize_of_nonneg hpos hrange.2] at hcut
    omega

end Item

/-! ## The loop -/

section Render

variable {p : Bytes × Nat} {servers : List (Bytes × Nat)}

theorem render_singleton (p : Bytes × Nat) : render [p] = renderItem p := List.intercalate_singleton

theorem render_cons (p : Bytes × Nat) (hne : servers ≠ []) :
    render (p :: servers) = renderItem p ++ 44 :: render servers := by
  rw [render, List.map_cons, List.intercalate_cons_of_ne_nil (by simpa using hne), List.append_assoc]
  rfl

theorem comma_notMem_renderItem (hp : ValidServer p) : 44 ∉ renderItem p := by
  rw [renderItem, List.mem_append, List.mem_cons]
  rintro (h | h | h)
  · exact hp.comma h
  · exact absurd h (by decide)
  · exact notMem_digitText (by decide) p.2 h

end Render

section Loop

variable {text : Bytes} {fuel : Nat}

/-- No comma is found: the rest of the text is the last item. -/
theorem parseServers_last {pre item : Bytes} (htext : text = pre ++ item) (hitem : 44 ∉ item)
    (hlen : text.length < 2 ^ 63) (hpre : pre.length < 2 ^ 31) :
    parseServers text (fuel + 1) pre.length = (parseItem item).map fun r => [r] := by
  have hdrop : text.drop pre.length = item := by simp [htext]
  have hnext : find text 44 (toSize (pre.length : Int)) = npos := by
    rw [toSize_natCast hpre]
    exact find_of_notMem (by rw [hdrop]; exact hitem)
  have hsubstr : substr text (toSize (pre.length : Int)) npos = .ok item := by
    rw [toSize_natCast hpre, substr_npos (by simp [htext]) hlen, hdrop]
  rw [parseServers, hnext, toInt_npos, if_pos (by decide), except_bind_of_ok (std_eq_ok.mpr hsubstr)]
  cases parseItem item <;> rfl

/-- A comma is found where no position is cut: the loop takes one item. -/
theorem parseServers_next {pre item rest : Bytes} (htext : text = pre ++ (item ++ 44 :: rest))
    (hitem : 44 ∉ item) (hsmall : pre.length + item.length + 1 < 2 ^ 31) {r : Bytes × Int}
    (hr : parseItem item = .ok r) :
    parseServers text (fuel + 1) pre.length =
      (parseServers text fuel (pre ++ item ++ [44]).length).map fun items => r :: items := by
  have hdrop : text.drop pre.length = item ++ 44 :: rest := by simp [htext]
  have hnext : toInt (find text 44 (toSize (pre.length : Int))) = (pre.length + item.length : Nat) := by
    rw [toSize_natCast (by omega), find_of_split hdrop hitem, toInt_natCast (by omega)]
  have hsubstr : substr text (toSize (pre.length : Int)) (toSize (item.length : Int)) = .ok item := by
    rw [toSize_natCast (by omega), toSize_natCast (by omega), substr_of_le (by simp [htext]), hdrop]
    simp
  have hlast : toInt (toSize (((pre.length + item.length : Nat) : Int) + 1)) =
      (pre ++ item ++ [44]).length := by
    rw [toInt_toSize_succ hsmall, List.length_append, List.length_append, List.length_singleton]
  have hgo : toSize ((pre.length + item.length : Nat) : Int) ≠ npos := toSize_ne_npos (by omega)
  have hcut : intResult (((pre.length + item.length : Nat) : Int) - pre.length) =
      .ok (item.length : Int) :=
    intResult_eq_ok.mpr ⟨by omega, by unfold minInt; omega, by unfold maxInt; omega⟩
  rw [parseServers, hnext, if_neg hgo, except_bind_of_ok hcut,
    except_bind_of_ok (std_eq_ok.mpr hsubstr), except_bind_of_ok hr, hlast]
  cases parseServers text fuel (pre ++ item ++ [44]).length <;> rfl

/-- When every comma stands early enough, the loop gets to the last item with the other servers in
their order. `pre` is what it has passed. -/
theorem parseServers_render {init : List (Bytes × Nat)} {p : Bytes × Nat}
    (hinit : ∀ q ∈ init, ValidServer q) (hp : ValidServer p) (hlen : text.length < 2 ^ 63)
    (hearly : EarlyCommas text) {pre : Bytes}
    (htext : text = pre ++ render (init ++ [p])) (hpre : pre.length < 2 ^ 31)
    (hfuel : init.length < fuel) :
    parseServers text fuel pre.length =
      (parseItem (renderItem p)).map fun r => pairsOf init ++ [r] := by
  induction init generalizing pre fuel with
  | nil =>
      obtain ⟨fuel, rfl⟩ := Nat.exists_eq_succ_of_ne_zero hfuel.ne'
      rw [List.nil_append, render_singleton] at htext
      rw [parseServers_last htext (comma_notMem_renderItem hp) hlen hpre]
      rfl
  | cons q init ih =>
      obtain ⟨fuel, rfl⟩ := Nat.exists_eq_succ_of_ne_zero (Nat.ne_of_gt (by omega : 0 < fuel))
      simp only [List.forall_mem_cons] at hinit
      rw [List.cons_append, render_cons q (by simp)] at htext
      have hcomma := hearly (pre.length + (renderItem q).length)
        (by rw [htext, List.getElem?_append_right (by omega), List.getElem?_append_right (by omega)]
            simp)
      have hq : parseItem (renderItem q) = .ok (q.1, (q.2 : Int)) := by
        have hitem := length_renderItem q
        exact parseItem_renderItem hinit.1 (by omega) (by omega)
      rw [parseServers_next htext (comma_notMem_renderItem hinit.1) hcomma hq,
        ih hinit.2 (by rw [htext]; simp) (by simp; omega) (by simpa using hfuel)]
      cases parseItem (renderItem p) <;> rfl

end Loop

/-! ## A comma that comes too late -/

section Late

variable {text : Bytes} {k : Nat}

structure LateComma (text : Bytes) (k : Nat) : Prop where
  comma : text[k]? = some 44
  late : 2 ^ 31 ≤ k + 1
  first : ∀ i : Nat, i < k → text[i]? = some 44 → i + 1 < 2 ^ 31

theorem exists_lateComma (h : ¬ EarlyCommas text) : ∃ k, LateComma text k := by
  unfold EarlyCommas at h
  push Not at h
  obtain ⟨hcomma, hlate⟩ := Nat.find_spec h
  refine ⟨Nat.find h, hcomma, hlate, ?_⟩
  intro i hi hcomma'
  by_contra hlate'
  exact Nat.find_min h hi ⟨hcomma', not_lt.mp hlate'⟩

/-- A step of the loop, wherever it starts, finds the late comma or an early one. -/
theorem LateComma.next (h : LateComma text k) {last : Int} (h₀ : 0 ≤ last) (hmax : last ≤ maxInt) :
    ∃ j : Nat, find text 44 (toSize last) = j ∧ text[j]? = some 44 ∧ (j = k ∨ j + 1 < 2 ^ 31) ∧
      (text.drop last.toNat).count 44 = (text.drop j).count 44 := by
  have hlate := h.late
  unfold maxInt at hmax
  have hstart : last.toNat ≤ k := by omega
  obtain ⟨j, hfind, hjk, hj, hcount⟩ := find_le h.comma hstart
  refine ⟨j, by rw [toSize_of_nonneg h₀ hmax, hfind], hj, ?_, hcount⟩
  rcases hjk.eq_or_lt with heq | hlt
  · exact .inl heq
  · exact .inr (h.first j hlt hj)

/-- Unless the late comma is taken for the end, the loop never comes to its end: a negative position is
behind the string, and from every other the loop finds the comma again. -/
theorem LateComma.never_ok (h : LateComma text k) (hgo : toInt k ≠ -1) (hlen : text.length < 2 ^ 63)
    (fuel : Nat) {last : Int} (hmin : minInt ≤ last) (hmax : last ≤ maxInt)
    (items : List (Bytes × Int)) : parseServers text fuel last ≠ .ok items := by
  induction fuel generalizing last items with
  | zero =>
      intro hparse
      cases hparse
  | succ fuel ih =>
      intro hparse
      rw [parseServers] at hparse
      rcases lt_or_ge last 0 with hneg | hpos
      · have hfar := toSize_of_neg hmin hneg
        have hbehind : text.drop (toSize last) = [] := List.drop_eq_nil_of_le (by omega)
        rw [find_of_notMem (by rw [hbehind]; exact List.not_mem_nil), toInt_npos,
          if_pos (by decide)] at hparse
        obtain ⟨ipCount, hsubstr, -⟩ := except_bind_eq_ok hparse
        have hle := substr_eq_ok (std_eq_ok.mp hsubstr)
        omega
      · obtain ⟨j, hfind, -, hj, -⟩ := h.next hpos hmax
        have hnot : toInt j ≠ -1 := by
          rcases hj with rfl | hearly
          · exact hgo
          · rw [toInt_natCast (by omega)]
            omega
        have hrange := toInt_range j
        rw [hfind, if_neg (by rwa [toSize_eq_npos hrange.1 hrange.2])] at hparse
        obtain ⟨len, -, hparse⟩ := except_bind_eq_ok hparse
        obtain ⟨ipCount, -, hparse⟩ := except_bind_eq_ok hparse
        obtain ⟨item, -, hparse⟩ := except_bind_eq_ok hparse
        obtain ⟨items', hrest, -⟩ := except_bind_eq_ok hparse
        exact ih (toInt_range _).1 (toInt_range _).2 items' hrest

/-- If the late comma is taken for the end, the items behind it are missing. -/
theorem LateComma.length_le (h : LateComma text k) (hstop : toInt k = -1) (fuel : Nat) {last : Int}
    (h₀ : 0 ≤ last) (hmax : last ≤ maxInt) {items : List (Bytes × Int)}
    (hparse : parseServers text fuel last = .ok items) :
    items.length + (text.drop k).count 44 ≤ (text.drop last.toNat).count 44 + 1 := by
  induction fuel generalizing last items with
  | zero => cases hparse
  | succ fuel ih =>
      rw [parseServers] at hparse
      obtain ⟨j, hfind, hcomma, hj, hcount⟩ := h.next h₀ hmax
      rw [hfind] at hparse
      rcases hj with rfl | hearly
      · rw [hstop, if_pos (by decide)] at hparse
        obtain ⟨ipCount, -, hparse⟩ := except_bind_eq_ok hparse
        obtain ⟨item, -, hparse⟩ := except_bind_eq_ok hparse
        cases hparse
        rw [hcount, List.length_singleton]
        omega
      · rw [toInt_natCast (by omega), if_neg (toSize_ne_npos (by omega)),
          toInt_toSize_succ hearly] at hparse
        obtain ⟨len, -, hparse⟩ := except_bind_eq_ok hparse
        obtain ⟨ipCount, -, hparse⟩ := except_bind_eq_ok hparse
        obtain ⟨item, -, hparse⟩ := except_bind_eq_ok hparse
        obtain ⟨items', hrest, hparse⟩ := except_bind_eq_ok hparse
        cases hparse
        have hle := ih (by omega) (by unfold maxInt; omega) hrest
        rw [Int.toNat_natCast] at hle
        rw [hcount, count_drop hcomma, List.length_cons]
        omega

end Late

/-! ## The whole text -/

section Text

variable {servers : List (Bytes × Nat)} {fuel : Nat}

theorem count_render (hne : servers ≠ []) (hvalid : ∀ p ∈ servers, ValidServer p) :
    (render servers).count 44 + 1 = servers.length := by
  induction servers with
  | nil => exact absurd rfl hne
  | cons p rest ih =>
      simp only [List.forall_mem_cons] at hvalid
      have hitem : (renderItem p).count 44 = 0 :=
        List.count_eq_zero_of_not_mem (comma_notMem_renderItem hvalid.1)
      cases rest with
      | nil => rw [render_singleton, hitem, List.length_singleton]
      | cons q rest =>
          rw [render_cons p (by simp), List.count_append, List.count_cons_self, hitem,
            ih (by simp) hvalid.2, Nat.zero_add]
          rfl

theorem length_renderItem_le (init : List (Bytes × Nat)) (p : Bytes × Nat) :
    (renderItem p).length ≤ (render (init ++ [p])).length := by
  induction init with
  | nil => rw [List.nil_append, render_singleton]
  | cons q init ih =>
      rw [List.cons_append, render_cons q (by simp), List.length_append, List.length_cons]
      omega

variable {init : List (Bytes × Nat)} {p : Bytes × Nat}

theorem parseServers_init (hvalid : ∀ q ∈ init ++ [p], ValidServer q)
    (hlen : (render (init ++ [p])).length < 2 ^ 63) (hearly : EarlyCommas (render (init ++ [p])))
    (hfuel : init.length < fuel) : parseServers (render (init ++ [p])) fuel 0 =
      (parseItem (renderItem p)).map fun r => pairsOf init ++ [r] := by
  have hinit : ∀ q ∈ init, ValidServer q := fun q hq => hvalid q (by simp [hq])
  have htext : render (init ++ [p]) = [] ++ render (init ++ [p]) := rfl
  exact parseServers_render hinit (hvalid p (by simp)) hlen hearly htext (by simp) hfuel

/-- Positions that an `int` can hold: the loop recovers the servers. -/
theorem parseServers_of_early (hvalid : ∀ q ∈ init ++ [p], ValidServer q)
    (hlen : (render (init ++ [p])).length < 2 ^ 63) (hearly : EarlyCommas (render (init ++ [p])))
    (hlast : p.1.length + 1 < 2 ^ 31) (hfuel : init.length < fuel) :
    parseServers (render (init ++ [p])) fuel 0 = .ok (pairsOf (init ++ [p])) := by
  have hitem := length_renderItem_le init p
  rw [parseServers_init hvalid hlen hearly hfuel,
    parseItem_renderItem (hvalid p (by simp)) hlast (by omega)]
  simp [pairsOf, Except.map]

/-- The loop recovers the servers only if every comma is early. -/
theorem early_of_parseServers (hvalid : ∀ q ∈ servers, ValidServer q) (hne : servers ≠ [])
    (hlen : (render servers).length < 2 ^ 63)
    (h : parseServers (render servers) fuel 0 = .ok (pairsOf servers)) :
    EarlyCommas (render servers) := by
  by_contra hnot
  obtain ⟨k, hk⟩ := exists_lateComma hnot
  by_cases hstop : toInt k = -1
  · have hle := hk.length_le hstop fuel le_rfl (by decide) h
    have hcount := count_render hne hvalid
    rw [count_drop hk.comma, Int.toNat_zero, List.drop_zero] at hle
    have hlength : (pairsOf servers).length = servers.length := by simp [pairsOf]
    omega
  · exact hk.never_ok hstop hlen fuel (by decide) (by decide) _ h

/-- And only if the last address is short. -/
theorem short_of_parseServers (hvalid : ∀ q ∈ init ++ [p], ValidServer q)
    (hlen : (render (init ++ [p])).length < 2 ^ 63) (hearly : EarlyCommas (render (init ++ [p])))
    (hfuel : init.length < fuel)
    (h : parseServers (render (init ++ [p])) fuel 0 = .ok (pairsOf (init ++ [p]))) :
    p.1.length + 1 < 2 ^ 31 := by
  by_contra hnot
  rw [parseServers_init hvalid hlen hearly hfuel] at h
  have hitem := length_renderItem_le init p
  cases hr : parseItem (renderItem p) with
  | error e =>
      rw [hr] at h
      cases h
  | ok r =>
      rw [hr] at h
      have hpair : r = (p.1, (p.2 : Int)) := by simpa [pairsOf, Except.map] using h
      apply parseItem_of_long (hvalid p (by simp)) (not_lt.mp hnot) (by omega) hr
      rw [hpair]

end Text

end ClientComm

/-! ## The sockets -/

namespace SocketMaps

/-- One socket for each key, connected to it, and every socket in one place. -/
structure Tidy (c : SocketMaps) : Prop where
  once : ∀ use, ((c.map use).map Prod.fst).Nodup
  numbers : ∀ use, ∀ e ∈ c.map use, e.2.id < c.opened
  sockets : ((c.map .dc ++ c.map .serve).map Prod.snd).Nodup
  connected : ∀ use, ∀ e ∈ c.map use, e.2.addr = ClientComm.endpoint e.1

section Emplace

variable {c : SocketMaps} {use : Use} {key : Bytes} {socket : Socket}

@[simp] theorem map_setMap (c : SocketMaps) (m : List (Bytes × Socket)) (use use' : Use) :
    (c.setMap m use).map use' = if use' = use then m else c.map use' := by
  cases use <;> cases use' <;> rfl

@[simp] theorem opened_setMap (c : SocketMaps) (m : List (Bytes × Socket)) (use : Use) :
    (c.setMap m use).opened = c.opened := by
  cases use <;> rfl

/-- What an `emplace` does: nothing if the key is there. -/
theorem emplace_cases (use : Use) (key : Bytes) (socket : Socket) (c : SocketMaps) :
    (key ∈ (c.map use).map Prod.fst ∧ c.emplace use key socket = c) ∨
      key ∉ (c.map use).map Prod.fst ∧
        c.emplace use key socket = c.setMap (c.map use ++ [(key, socket)]) use := by
  unfold emplace
  by_cases h : key ∈ (c.map use).map Prod.fst
  · exact .inl ⟨h, if_pos h⟩
  · exact .inr ⟨h, if_neg h⟩

theorem opened_emplace : (c.emplace use key socket).opened = c.opened := by
  rcases emplace_cases use key socket c with ⟨-, heq⟩ | ⟨-, heq⟩ <;> simp [heq]

theorem mem_emplace {key' : Bytes} : key' ∈ ((c.emplace use key socket).map use).map Prod.fst ↔
    key' ∈ (c.map use).map Prod.fst ∨ key' = key := by
  rcases emplace_cases use key socket c with ⟨hmem, heq⟩ | ⟨-, heq⟩
  · rw [heq, or_iff_left_of_imp]
    rintro rfl
    exact hmem
  · simp [heq]

theorem map_emplace_of_ne {use' : Use} (hne : use' ≠ use) :
    (c.emplace use key socket).map use' = c.map use' := by
  rcases emplace_cases use key socket c with ⟨-, heq⟩ | ⟨-, heq⟩ <;> simp [heq, hne]

@[simp] theorem map_opened (c : SocketMaps) (n : Nat) (use : Use) :
    ({ c with opened := n } : SocketMaps).map use = c.map use := by
  cases use <;> rfl

/-- Counting one more socket. -/
theorem Tidy.succ (h : c.Tidy) : ({ c with opened := c.opened + 1 } : SocketMaps).Tidy where
  once := h.once
  numbers use e he := Nat.lt_succ_of_lt (h.numbers use e he)
  sockets := h.sockets
  connected := h.connected

/-- A socket with the next number is in neither map. -/
theorem Tidy.fresh (h : c.Tidy) (use : Use) (addr : Bytes) :
    (⟨c.opened, addr⟩ : Socket) ∉ (c.map use).map Prod.snd := by
  intro hmem
  obtain ⟨e, he, heq⟩ := List.mem_map.mp hmem
  have hlt := h.numbers use e he
  rw [heq] at hlt
  exact absurd hlt (Nat.lt_irrefl _)

def withSocket (c : SocketMaps) (use : Use) (key : Bytes) : SocketMaps :=
  ({ c with opened := c.opened + 1 } : SocketMaps).setMap
    (c.map use ++ [(key, ⟨c.opened, ClientComm.endpoint key⟩)]) use

theorem mem_withSocket {use' : Use} {e : Bytes × Socket} (he : e ∈ (c.withSocket use key).map use') :
    e ∈ c.map use' ∨ e = (key, ⟨c.opened, ClientComm.endpoint key⟩) := by
  rw [withSocket, map_setMap] at he
  split at he
  · rename_i huse
    rw [huse]
    simpa using he
  · exact .inl he

theorem Tidy.nodup_withSocket (h : c.Tidy) (use : Use) (key : Bytes) :
    (((c.withSocket use key).map .dc ++ (c.withSocket use key).map .serve).map Prod.snd).Nodup := by
  have hfresh : (⟨c.opened, ClientComm.endpoint key⟩ : Socket) ∉
      (c.map .dc ++ c.map .serve).map Prod.snd := by
    rw [List.map_append, List.mem_append]
    rintro (hmem | hmem)
    · exact h.fresh .dc _ hmem
    · exact h.fresh .serve _ hmem
  -- the new socket is at the end of one of the maps
  apply (List.nodup_cons.mpr ⟨hfresh, h.sockets⟩).perm
  cases use with
  | dc =>
      simp only [withSocket, map_setMap, map_opened, List.map_append, if_true, reduceCtorEq, if_false,
        List.append_assoc]
      exact List.perm_middle.symm
  | serve =>
      simp only [withSocket, map_setMap, map_opened, List.map_append, if_true, reduceCtorEq, if_false]
      rw [← List.append_assoc]
      exact (List.perm_append_singleton _ _).symm

theorem Tidy.withSocket (h : c.Tidy) (hnew : key ∉ (c.map use).map Prod.fst) :
    (c.withSocket use key).Tidy := by
  refine ⟨?_, ?_, h.nodup_withSocket use key, ?_⟩
  · intro use'
    rw [SocketMaps.withSocket, map_setMap]
    split
    · rw [List.map_append, List.nodup_append]
      refine ⟨h.once use, by simp, ?_⟩
      intro a ha b hb
      rw [List.map_singleton, List.mem_singleton] at hb
      rintro rfl
      rw [hb] at ha
      exact hnew ha
    · exact h.once use'
  · intro use' e he
    rw [SocketMaps.withSocket, opened_setMap]
    rcases mem_withSocket he with hold | rfl
    · exact Nat.lt_succ_of_lt (h.numbers use' e hold)
    · exact Nat.lt_succ_self _
  · intro use' e he
    rcases mem_withSocket he with hold | rfl
    · exact h.connected use' e hold
    · rfl

/-- The next socket for a key keeps the maps tidy, whether it is needed or not. -/
theorem Tidy.emplace (h : c.Tidy) (use : Use) (key : Bytes) :
    (({ c with opened := c.opened + 1 } : SocketMaps).emplace use key
      ⟨c.opened, ClientComm.endpoint key⟩).Tidy := by
  rcases emplace_cases use key ⟨c.opened, ClientComm.endpoint key⟩
    { c with opened := c.opened + 1 } with ⟨-, heq⟩ | ⟨hnew, heq⟩
  · rw [heq]
    exact h.succ
  · rw [heq]
    rw [map_opened] at hnew ⊢
    exact h.withSocket hnew

end Emplace

end SocketMaps

namespace ClientComm

structure Opened (Z : Zmq) (use : Use) (addrs : List Bytes) (c c' : SocketMaps) : Prop where
  room : addrs.length ≤ Z.maxSockets - c.opened
  accepted : ∀ a ∈ addrs, Z.accepts (endpoint a) = true
  opened : c'.opened = c.opened + addrs.length
  keys : ∀ key, key ∈ (c'.map use).map Prod.fst ↔ key ∈ (c.map use).map Prod.fst ∨ key ∈ addrs
  others : ∀ use', use' ≠ use → c'.map use' = c.map use'
  tidy : c.Tidy → c'.Tidy

section Connect

variable {Z : Zmq} {use : Use}

/-- One address. -/
theorem wp_connectAddr (addr : Bytes) (c : SocketMaps) :
    Exec.wp (connectAddr Z use addr) (fun _ c' => Opened Z use [addr] c c')
      (fun _ _ => ¬ (c.opened < Z.maxSockets ∧ Z.accepts (endpoint addr) = true)) c := by
  simp only [connectAddr, openSocket, Exec.wp_bind, Exec.wp_get, Exec.wp_check, Exec.wp_set,
    Exec.wp_pure, Exec.wp_modify, decide_eq_true_eq, decide_eq_false_iff_not]
  refine ⟨fun hroom => ⟨fun haccept => ?_, ?_⟩, fun hfull h => hfull h.1⟩
  · refine ⟨by rw [List.length_singleton]; omega, by simpa using haccept, ?_, ?_, ?_, ?_⟩
    · rw [SocketMaps.opened_emplace, List.length_singleton]
    · intro key
      rw [SocketMaps.mem_emplace, SocketMaps.map_opened, List.mem_singleton]
    · intro use' hne
      rw [SocketMaps.map_emplace_of_ne hne, SocketMaps.map_opened]
    · intro htidy
      exact htidy.emplace use addr
  · intro hrefused h
    rw [h.2] at hrefused
    cases hrefused

/-- All addresses of a list, one after another. -/
theorem wp_connectAddrs (addrs : List Bytes) (c : SocketMaps) :
    Exec.wp (addrs.forM (connectAddr Z use)) (fun _ c' => Opened Z use addrs c c')
      (fun _ _ => ¬ (addrs.length ≤ Z.maxSockets - c.opened ∧
        ∀ a ∈ addrs, Z.accepts (endpoint a) = true)) c := by
  induction addrs generalizing c with
  | nil => exact ⟨by simp, by simp, by simp, by simp, fun _ _ => rfl, id⟩
  | cons a addrs ih =>
      rw [List.forM_eq_forM, List.forM_cons, Exec.wp_bind]
      apply Exec.wp_mono (wp_connectAddr a c)
      · intro _ c₁ h₁
        have hroom := h₁.room
        have hopened := h₁.opened
        rw [List.length_singleton] at hroom hopened
        apply Exec.wp_mono (ih c₁)
        · intro _ c₂ h₂
          have hroom' := h₂.room
          refine ⟨by rw [List.length_cons]; omega, ?_, ?_, ?_, ?_, fun h => h₂.tidy (h₁.tidy h)⟩
          · rw [List.forall_mem_cons]
            exact ⟨h₁.accepted a (by simp), h₂.accepted⟩
          · rw [h₂.opened, hopened, List.length_cons]
            omega
          · intro key
            rw [h₂.keys, h₁.keys, List.mem_singleton, List.mem_cons, or_assoc]
          · intro use' hne
            rw [h₂.others use' hne, h₁.others use' hne]
        · intro x c₂ hnot h
          rw [List.length_cons, List.forall_mem_cons] at h
          exact hnot ⟨by omega, h.2.2⟩
      · intro x c₁ hnot h
        rw [List.length_cons, List.forall_mem_cons] at h
        exact hnot ⟨by omega, h.2.1⟩

theorem forM_congr_of_mem {α : Type} {l : List α} {f g : α → CommM Unit}
    (h : ∀ a ∈ l, f a = g a) : l.forM f = l.forM g := by
  induction l with
  | nil => rfl
  | cons a l ih =>
      rw [List.forall_mem_cons] at h
      rw [List.forM_eq_forM, List.forM_cons, List.forM_cons, h.1, ← List.forM_eq_forM, ih h.2]

/-- The inner loop over one server goes through its addresses: the ports are too small to overflow. -/
theorem connectServer_pair {p : Bytes × Nat} (hp : ValidServer p) :
    connectServer Z use (p.1, (p.2 : Int)) =
      (serverAddrs use [p]).forM (connectAddr Z use) := by
  have hports := hp.ports
  have hcount : decide ((p.2 : Int) + initDcServerId ≤ maxInt) = true := by
    rw [decide_eq_true_eq]
    unfold initDcServerId maxInt
    omega
  have hbase : use.basePort ≤ 4300 := by
    cases use <;> decide
  have hbody : ∀ i ∈ List.range' initDcServerId p.2,
      (do
        Exec.check (decide ((use.basePort : Int) + (i : Int) ≤ maxInt)) .undefined
        connectAddr Z use (serverAddr p.1 (use.basePort + i)) : CommM Unit) =
        connectAddr Z use (serverAddr p.1 (use.basePort + i)) := by
    intro i hi
    rw [List.mem_range'_1] at hi
    have hport : decide ((use.basePort : Int) + (i : Int) ≤ maxInt) = true := by
      rw [decide_eq_true_eq]
      unfold initDcServerId at hi
      unfold maxInt
      omega
    rw [hport]
    rfl
  have haddrs : serverAddrs use [p] = (List.range' initDcServerId p.2).map fun i =>
      serverAddr p.1 (use.basePort + i) := by simp [serverAddrs]
  have hmap : (serverAddrs use [p]).forM (connectAddr Z use) = (List.range' initDcServerId p.2).forM
      fun i => connectAddr Z use (serverAddr p.1 (use.basePort + i)) := by
    simp only [haddrs, List.forM_eq_forM, List.forM_map]
  rw [hmap, ← forM_congr_of_mem hbody, connectServer, hcount]
  rfl

theorem connectServers_pairsOf {servers : List (Bytes × Nat)}
    (hvalid : ∀ p ∈ servers, ValidServer p) :
    connectServers Z use (pairsOf servers) = (serverAddrs use servers).forM (connectAddr Z use) := by
  induction servers with
  | nil => rfl
  | cons p servers ih =>
      rw [List.forall_mem_cons] at hvalid
      have hsplit : serverAddrs use (p :: servers) =
          serverAddrs use [p] ++ serverAddrs use servers := by simp [serverAddrs]
      have hcons : connectServers Z use (pairsOf (p :: servers)) =
          (connectServer Z use (p.1, (p.2 : Int)) >>= fun _ =>
            connectServers Z use (pairsOf servers)) := by
        rw [connectServers, pairsOf, List.map_cons, List.forM_eq_forM, List.forM_cons]
        rfl
      rw [hcons, hsplit, List.forM_eq_forM, List.forM_append, ← List.forM_eq_forM,
        connectServer_pair hvalid.1, ih hvalid.2]

end Connect

end ClientComm

/-! ## The constructor -/

section Constructor

variable {Z : Zmq} {ip : Bytes} {servers : List (Bytes × Nat)} {fuel : Nat}

theorem mem_serverAddrs {use : Use} {key : Bytes} : key ∈ serverAddrs use servers ↔
    ∃ p ∈ servers, ∃ i, 101 ≤ i ∧ i < 101 + p.2 ∧
      key = ClientComm.serverAddr p.1 (use.basePort + i) := by
  simp only [serverAddrs, List.mem_flatMap, List.mem_map, List.mem_range'_1, initDcServerId, and_assoc,
    eq_comm]

theorem length_serverAddrs (use : Use) (servers : List (Bytes × Nat)) :
    (serverAddrs use servers).length = (servers.map Prod.snd).sum := by
  simp [serverAddrs, List.length_flatMap]

theorem SocketMaps.tidy_empty : ({} : SocketMaps).Tidy := by
  refine ⟨?_, ?_, List.nodup_nil, ?_⟩
  · intro use
    cases use <;> exact List.nodup_nil
  · intro use e he
    cases use <;> cases he
  · intro use e he
    cases use <;> cases he

/-- The maps after both loops. -/
theorem configured_of_opened {c₁ c₂ : SocketMaps}
    (hdc : ClientComm.Opened Z .dc (serverAddrs .dc servers) {} c₁)
    (hserve : ClientComm.Opened Z .serve (serverAddrs .serve servers) c₁ c₂) :
    Configured servers c₂ := by
  have htidy := hserve.tidy (hdc.tidy SocketMaps.tidy_empty)
  refine ⟨?_, htidy.once, htidy.sockets, htidy.connected⟩
  intro use key
  rw [← mem_serverAddrs]
  cases use with
  | dc =>
      rw [hserve.others .dc (by decide), hdc.keys, or_iff_right]
      exact List.not_mem_nil
  | serve =>
      rw [hserve.keys, hdc.others .serve (by decide), or_iff_right]
      exact List.not_mem_nil

/-- When the loop has recovered the servers, it depends on ZeroMQ whether the sockets are opened. -/
theorem wp_new (hvalid : ∀ p ∈ servers, ValidServer p) {text : Bytes}
    (hparse : ClientComm.parseServers text fuel 0 = .ok (pairsOf servers)) :
    Exec.wp (ClientComm.new Z ip text fuel)
      (fun _ c => ip ≠ [] ∧ 2 * (servers.map Prod.snd).sum ≤ Z.maxSockets ∧
        (∀ use, ∀ addr ∈ serverAddrs use servers, Z.accepts (ClientComm.endpoint addr) = true) ∧
        Configured servers c)
      (fun _ _ => ¬ (ip ≠ [] ∧ text ≠ [] ∧ 2 * (servers.map Prod.snd).sum ≤ Z.maxSockets ∧
        ∀ use, ∀ addr ∈ serverAddrs use servers, Z.accepts (ClientComm.endpoint addr) = true))
      {} := by
  have hdcLen := length_serverAddrs .dc servers
  have hserveLen := length_serverAddrs .serve servers
  simp only [ClientComm.new, Exec.wp_bind, Exec.wp_check, decide_eq_true_eq, decide_eq_false_iff_not,
    hparse, ClientComm.connectServers_pairsOf hvalid]
  refine ⟨fun hip => ⟨fun htext => ?_, fun hnot h => hnot h.2.1⟩, fun hnot h => hnot h.1⟩
  apply Exec.wp_mono (ClientComm.wp_connectAddrs (serverAddrs .dc servers) _)
  · intro _ c₁ h₁
    have hopened : c₁.opened = (serverAddrs .dc servers).length := by
      rw [h₁.opened]
      exact Nat.zero_add _
    apply Exec.wp_mono (ClientComm.wp_connectAddrs (serverAddrs .serve servers) c₁)
    · intro _ c₂ h₂
      have hroom := h₂.room
      have hroom' : (serverAddrs .dc servers).length ≤ Z.maxSockets := h₁.room
      refine ⟨hip, by omega, ?_, configured_of_opened h₁ h₂⟩
      intro use
      cases use with
      | dc => exact h₁.accepted
      | serve => exact h₂.accepted
    · intro x c₂ hnot h
      exact hnot ⟨by omega, h.2.2.2 .serve⟩
  · intro x c₁ hnot h
    refine hnot ⟨?_, h.2.2.2 .dc⟩
    change (serverAddrs .dc servers).length ≤ Z.maxSockets
    omega

theorem render_ne_nil (hne : servers ≠ []) : render servers ≠ [] := by
  obtain ⟨init, p, rfl⟩ := servers.eq_nil_or_concat'.resolve_left hne
  intro hnil
  have hle := ClientComm.length_renderItem_le init p
  rw [ClientComm.length_renderItem, hnil, List.length_nil] at hle
  omega

theorem configures_of_recoverable (hne : servers ≠ []) (hvalid : ∀ p ∈ servers, ValidServer p)
    (hlen : (render servers).length < 2 ^ 63) (h : Recoverable Z ip servers) :
    Configures Z ip servers := by
  refine ⟨servers.length, ?_⟩
  intro fuel hfuel
  have hparse : ClientComm.parseServers (render servers) fuel 0 = .ok (pairsOf servers) := by
    obtain ⟨init, p, rfl⟩ := servers.eq_nil_or_concat'.resolve_left hne
    apply ClientComm.parseServers_of_early hvalid hlen h.commas
    · exact h.lastIp p (by simp)
    · rw [List.length_append, List.length_singleton] at hfuel
      omega
  have hreturns : Exec.wp (ClientComm.new Z ip (render servers) fuel)
      (fun _ c => Configured servers c) (fun _ _ => False) {} := by
    apply Exec.wp_mono (wp_new hvalid hparse)
    · intro _ c hok
      exact hok.2.2.2
    · intro x c hnot
      exact hnot ⟨h.client, render_ne_nil hne, h.room, h.accepted⟩
  obtain ⟨_, c, hc, hconf⟩ := Exec.exists_ok hreturns
  exact ⟨hparse, c, hc, hconf⟩

theorem recoverable_of_configures (hne : servers ≠ []) (hvalid : ∀ p ∈ servers, ValidServer p)
    (hlen : (render servers).length < 2 ^ 63) (h : Configures Z ip servers) :
    Recoverable Z ip servers := by
  obtain ⟨n, hn⟩ := h
  obtain ⟨hparse, c, hc, -⟩ := hn (max n servers.length) (le_max_left _ _)
  obtain ⟨hip, hroom, haccepted, -⟩ := Exec.wp_ok (wp_new hvalid hparse) hc
  have hearly := ClientComm.early_of_parseServers hvalid hne hlen hparse
  refine ⟨hip, hearly, ?_, hroom, haccepted⟩
  obtain ⟨init, p, rfl⟩ := servers.eq_nil_or_concat'.resolve_left hne
  intro q hq
  rw [List.getLast?_append_of_ne_nil _ (by simp), List.getLast?_singleton, Option.mem_some_iff] at hq
  rw [← hq]
  apply ClientComm.short_of_parseServers hvalid hlen hearly _ hparse
  rw [List.length_append, List.length_singleton]
  omega

/-- The constructor recovers a configuration exactly if all its positions fit an `int` and ZeroMQ has
the sockets for it. -/
theorem configures_iff_recoverable (Z : Zmq) (ip : Bytes) (servers : List (Bytes × Nat))
    (hne : servers ≠ []) (hvalid : ∀ p ∈ servers, ValidServer p)
    (hlen : (render servers).length < 2 ^ 63) :
    Configures Z ip servers ↔ Recoverable Z ip servers :=
  ⟨recoverable_of_configures hne hvalid hlen, configures_of_recoverable hne hvalid hlen⟩

end Constructor

def defaultZmq : Zmq := ⟨1023, fun _ => true⟩

def twoServers : List (Bytes × Nat) := [([49, 48, 46, 52, 46, 48, 46, 49, 48], 1), ([104], 2)]

theorem configures_iff_recoverable_twoServers :
    Recoverable defaultZmq [49] twoServers ∧ Configures defaultZmq [49] twoServers := by
  have hlen : (render twoServers).length = 15 := by decide
  have hrecoverable : Recoverable defaultZmq [49] twoServers := by
    refine ⟨List.cons_ne_nil _ _, ?_, ?_, by decide, fun _ _ _ => rfl⟩
    · intro i hi
      obtain ⟨hlt, -⟩ := List.getElem?_eq_some_iff.mp hi
      omega
    · intro p hp
      simp only [twoServers, List.getLast?_cons_cons, List.getLast?_singleton,
        Option.mem_some_iff] at hp
      rw [← hp]
      decide
  exact ⟨hrecoverable, (configures_iff_recoverable defaultZmq [49] twoServers
    (List.cons_ne_nil _ _) (by decide) (by omega)).mpr hrecoverable⟩

def letters (n : Nat) : Bytes := List.replicate n 97

theorem letters_valid {n : Nat} (hn : 0 < n) : ValidServer (letters n, 1) := by
  refine ⟨?_, ?_, ?_, by simp⟩
  · exact List.ne_nil_of_length_pos (by rw [letters, List.length_replicate]; exact hn)
  · intro h
    exact absurd (List.eq_of_mem_replicate h) (by decide)
  · intro h
    exact absurd (List.eq_of_mem_replicate h) (by decide)

theorem length_render_letters (n : Nat) : (render [(letters n, 1)]).length = n + 2 := by
  have hdigits : (digitText 10 1).length = 1 := by decide
  rw [ClientComm.render_singleton, ClientComm.length_renderItem, letters, List.length_replicate,
    hdigits]

/-- The colon behind so many letters is too far for an `int`. -/
theorem not_configures_of_long (Z : Zmq) (ip : Bytes) {n : Nat} (hn : 2 ^ 31 ≤ n + 1)
    (hlen : n + 2 < 2 ^ 63) : ¬ Configures Z ip [(letters n, 1)] := by
  intro h
  have hvalid : ∀ p ∈ [(letters n, 1)], ValidServer p := by
    intro p hp
    rw [List.mem_singleton.mp hp]
    exact letters_valid (by omega)
  have hrec := recoverable_of_configures (by simp) hvalid (by rwa [length_render_letters]) h
  have hlast := hrec.lastIp (letters n, 1) rfl
  rw [letters, List.length_replicate] at hlast
  omega

/-- 512 servers at one address, which take 1024 sockets; and an address of two gigabytes. -/
theorem not_configures_letters :
    ValidServer ([104], 512) ∧ ¬ Configures defaultZmq [49] [([104], 512)] ∧
    ValidServer (letters (2 ^ 31), 1) ∧ (render [(letters (2 ^ 31), 1)]).length < 2 ^ 63 ∧
      ¬ Configures defaultZmq [49] [(letters (2 ^ 31), 1)] := by
  have hvalid : ValidServer ([104], 512) := by decide
  refine ⟨hvalid, ?_, letters_valid (by decide), ?_, ?_⟩
  · intro h
    have hrec := recoverable_of_configures (by simp) (by simpa using hvalid) (by decide) h
    have hroom := hrec.room
    exact absurd hroom (by decide)
  · rw [length_render_letters]
    decide
  · exact not_configures_of_long defaultZmq [49] (by decide) (by decide)

/-! ## Sending to the servers -/

structure Network.Uses (N : Network) (c : SocketMaps) : Prop where
  dc : N.dcServers = (c.map .dc).map Prod.fst
  serve : N.serveServers = (c.map .serve).map Prod.fst

section Sending

variable {N : Network} {servers : List (Bytes × Nat)} {c : SocketMaps} {s : DCClient} {msg : Bytes}

/-- A write goes once to every server of the configuration. -/
theorem wp_mcastDc_configured (hconf : Configured servers c) (hN : N.Uses c) :
    Exec.wp (ClientComm.mcastDc N msg)
      (fun _ t => ∃ addrs : List Bytes, t.sent = addrs.map (·, msg) ++ s.sent ∧ addrs.Nodup ∧
        ∀ addr, addr ∈ addrs ↔ addr ∈ serverAddrs .dc servers)
      (fun _ _ => False) s := by
  simp only [ClientComm.mcastDc, Exec.wp_modify]
  refine ⟨N.dcServers, rfl, ?_, ?_⟩
  · rw [hN.dc]
    exact hconf.once .dc
  · intro addr
    rw [hN.dc, hconf.keys, mem_serverAddrs]

/-- A request goes to one of them, if there is one. -/
theorem wp_sendGetReq_configured (hconf : Configured servers c) (hN : N.Uses c)
    (hsome : serverAddrs .serve servers ≠ []) (rand : Nat) :
    Exec.wp (ClientComm.sendGetReq N rand msg)
      (fun _ t => ∃ addr ∈ serverAddrs .serve servers, t.sent = (addr, msg) :: s.sent)
      (fun _ _ => False) s := by
  have hkeys : ∀ addr, addr ∈ N.serveServers ↔ addr ∈ serverAddrs .serve servers := by
    intro addr
    rw [hN.serve, hconf.keys, mem_serverAddrs]
  have hpos : 0 < N.serveServers.length := by
    obtain ⟨addr, haddr⟩ := List.exists_mem_of_ne_nil _ hsome
    exact List.length_pos_of_mem ((hkeys addr).mpr haddr)
  have hget := List.getElem?_eq_getElem (Nat.mod_lt rand hpos)
  simp only [ClientComm.sendGetReq, Exec.wp_bind, Exec.wp_orAbort, Exec.wp_modify, hget]
  refine ⟨?_, fun hnone => by cases hnone⟩
  intro addr haddr
  rw [Option.some.injEq] at haddr
  exact ⟨addr, (hkeys addr).mp (haddr ▸ List.getElem_mem _), rfl⟩

end Sending

end DcfsClient
