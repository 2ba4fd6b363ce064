import Mathlib.Tactic

/-!
# Channels that lose and reorder, and do not duplicate

A channel remembers the messages it has delivered and those that are still pending. Any pending message
may be delivered next, and none has to be; a message that is lost is one that stays pending. What was
sent is what was delivered and what is pending, so no delivery changes it.

`card_senders` is how counting messages becomes counting senders: if no two of the messages that were
sent and counted have one sender, neither have those that were delivered.
-/

namespace DcfsClient

structure Channel (α : Type) where
  delivered : Multiset α := 0
  pending : Multiset α := 0

namespace Channel

variable {α β γ : Type} (c : Channel α) {d : Channel α} {m : α}

def sent : Multiset α := c.delivered + c.pending

def send (ms : Multiset α) : Channel α := { c with pending := ms + c.pending }

def deliver [DecidableEq α] (m : α) : Option (Channel α) :=
  if m ∈ c.pending then some ⟨m ::ₘ c.delivered, c.pending.erase m⟩ else none

@[simp] theorem delivered_send (ms : Multiset α) : (c.send ms).delivered = c.delivered := rfl

@[simp] theorem pending_send (ms : Multiset α) : (c.send ms).pending = ms + c.pending := rfl

@[simp] theorem sent_send (ms : Multiset α) : (c.send ms).sent = ms + c.sent := by
  simp only [sent, send]
  abel

@[simp] theorem sent_empty : ({} : Channel α).sent = 0 := rfl

variable {c}

theorem delivered_le : c.delivered ≤ c.sent := Multiset.le_add_right _ _

theorem mem_sent_of_delivered (h : m ∈ c.delivered) : m ∈ c.sent :=
  Multiset.mem_of_le delivered_le h

theorem mem_sent_of_pending (h : m ∈ c.pending) : m ∈ c.sent := Multiset.mem_add.mpr (.inr h)

section Deliver

variable [DecidableEq α]

theorem deliver_of_pending (h : m ∈ c.pending) :
    c.deliver m = some ⟨m ::ₘ c.delivered, c.pending.erase m⟩ := if_pos h

theorem exists_deliver (h : m ∈ c.pending) : ∃ d, c.deliver m = some d := ⟨_, deliver_of_pending h⟩

theorem pending_of_deliver (h : c.deliver m = some d) : m ∈ c.pending := by
  unfold deliver at h
  split at h
  next hm => exact hm
  next => cases h

theorem delivered_of_deliver (h : c.deliver m = some d) : d.delivered = m ::ₘ c.delivered := by
  rw [deliver_of_pending (pending_of_deliver h), Option.some.injEq] at h
  rw [← h]

theorem pending_eq_of_deliver (h : c.deliver m = some d) : c.pending = m ::ₘ d.pending := by
  have hm := pending_of_deliver h
  rw [deliver_of_pending hm, Option.some.injEq] at h
  rw [← h]
  exact (Multiset.cons_erase hm).symm

theorem sent_of_deliver (h : c.deliver m = some d) : d.sent = c.sent := by
  rw [sent, sent, delivered_of_deliver h, pending_eq_of_deliver h, Multiset.cons_add,
    Multiset.add_cons]

end Deliver

/-- Distinct senders of what was sent are distinct senders of what was delivered, and there are as many
of them as messages. -/
theorem card_senders [DecidableEq β] {p : α → Prop} [DecidablePred p] {sender : α → β}
    (h : ((c.sent.filter p).map sender).Nodup) :
    ((c.delivered.filter p).map sender).toFinset.card = c.delivered.countP p := by
  have hle : (c.delivered.filter p).map sender ≤ (c.sent.filter p).map sender :=
    Multiset.map_le_map (Multiset.filter_le_filter p delivered_le)
  rw [Multiset.toFinset_card_of_nodup (Multiset.nodup_of_le hle h), Multiset.card_map,
    Multiset.countP_eq_card_filter]

end Channel

end DcfsClient
