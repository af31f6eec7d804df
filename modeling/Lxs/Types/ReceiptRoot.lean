import Lxs.Types.Merkle

/-!
# The receipt root binds the receipts

A receipt is encoded field by field without tags: numbers have a fixed width, the logs, the topics of a log and its data are
counted in front. So a log can be read off the front of what follows it, and a receipt has one encoding.

* `receiptRoot_binds`: **lists with one receipt root are one list**.
-/

namespace Lxs

section Encoding

variable {l l' : Log} {r r' : Receipt}

def Log.Slices (l : Log) : Prop := l.topics.length < 2 ^ 63 ∧ l.data.length < 2 ^ 63

def Receipt.Slices (r : Receipt) : Prop := r.logs.length < 2 ^ 63 ∧ ∀ l ∈ r.logs, l.Slices

instance (l : Log) : Decidable l.Slices := inferInstanceAs (Decidable (_ ∧ _))

instance (r : Receipt) : Decidable r.Slices := inferInstanceAs (Decidable (_ ∧ _))

theorem Log.encodeInto_append_inj {rest rest' : Bytes} (hl : l.Slices) (hl' : l'.Slices)
    (h : l.encodeInto ++ rest = l'.encodeInto ++ rest') : l = l' ∧ rest = rest' := by
  obtain ⟨htopics, hdata⟩ := hl
  obtain ⟨htopics', hdata'⟩ := hl'
  simp only [Log.encodeInto, List.append_assoc] at h
  obtain ⟨haddress, h⟩ := List.append_inj h (by simp)
  obtain ⟨hcount, h⟩ := List.append_inj h (by simp)
  have hcount : l.topics.length = l'.topics.length := ofNat_inj (by omega) (by omega) (encUint64_inj hcount)
  obtain ⟨htopics, h⟩ := flatMap_append_inj hcount
    (fun a _ b _ s s' hab => (List.append_inj hab (by simp)).imp_left hashBytes_inj) h
  obtain ⟨hdata, h⟩ := encBytes_append_inj (by omega) (by omega) h
  refine ⟨?_, h⟩
  cases l
  cases l'
  simp only [Log.mk.injEq]
  exact ⟨addressBytes_inj haddress, htopics, hdata⟩

theorem Receipt.encode_inj (hr : r.Slices) (hr' : r'.Slices) (h : r.encode = r'.encode) : r = r' := by
  obtain ⟨hlen, hlogs⟩ := hr
  obtain ⟨hlen', hlogs'⟩ := hr'
  simp only [Receipt.encode, List.append_assoc] at h
  obtain ⟨hstatus, h⟩ := List.append_inj h (by simp)
  obtain ⟨hcumulative, h⟩ := List.append_inj h (by simp)
  obtain ⟨hused, h⟩ := List.append_inj h (by simp)
  obtain ⟨hcount, h⟩ := List.append_inj h (by simp)
  have hcount : r.logs.length = r'.logs.length := ofNat_inj (by omega) (by omega) (encUint64_inj hcount)
  rw [← List.append_nil (r.logs.flatMap _), ← List.append_nil (r'.logs.flatMap _)] at h
  obtain ⟨hlogs, -⟩ := flatMap_append_inj hcount
    (fun l hl l' hl' s s' hll => Log.encodeInto_append_inj (hlogs l hl) (hlogs' l' hl') hll) h
  cases r
  cases r'
  simp only [Receipt.mk.injEq]
  exact ⟨encUint64_inj hstatus, encUint64_inj hcumulative, encUint64_inj hused, hlogs⟩

end Encoding

variable [Crypto]

/-- **The receipt root binds all receipts**: lists of any lengths with one root are one list, in order and in every field of
every receipt and log, as far as Keccak-256 has no collision and no zero on what the two roots hash. -/
theorem receiptRoot_binds {rs rs' : List Receipt} (hslices : ∀ r ∈ rs ++ rs', r.Slices)
    (hfree : CollisionFree (merkleHashed (rs.map Receipt.encode) ++ merkleHashed (rs'.map Receipt.encode))) :
    receiptRoot rs = receiptRoot rs' ↔ rs = rs' := by
  refine ⟨fun heq => map_inj_on (leaves_eq_of_merkleRoot hfree heq) fun r hr r' hr' h => ?_, fun h => h ▸ rfl⟩
  exact Receipt.encode_inj (hslices r (List.mem_append_left _ hr)) (hslices r' (List.mem_append_right _ hr')) h

def splitLogs : Receipt := ⟨1, 30000, 30000, [⟨7, [1], [5]⟩, ⟨7, [2], []⟩]⟩

def joinedLogs : Receipt := ⟨1, 30000, 30000, [⟨7, [1, 2], [5]⟩]⟩

omit [Crypto] in
theorem receiptRoot_binds_logs : @receiptRoot stepCrypto [splitLogs, joinedLogs] ≠ @receiptRoot stepCrypto [joinedLogs, splitLogs] ∧
    @receiptRoot stepCrypto [splitLogs] ≠ @receiptRoot stepCrypto [joinedLogs] := by
  have horder : @CollisionFree stepCrypto (@merkleHashed stepCrypto ([splitLogs, joinedLogs].map Receipt.encode) ++
      @merkleHashed stepCrypto ([joinedLogs, splitLogs].map Receipt.encode)) := by
    refine @CollisionFree.mk stepCrypto _ ?_ ?_ <;> decide +kernel
  have hsplit : @CollisionFree stepCrypto (@merkleHashed stepCrypto ([splitLogs].map Receipt.encode) ++
      @merkleHashed stepCrypto ([joinedLogs].map Receipt.encode)) := by
    refine @CollisionFree.mk stepCrypto _ ?_ ?_ <;> decide +kernel
  exact ⟨(@receiptRoot_binds stepCrypto _ _ (by decide) horder).not.2 (by decide),
    (@receiptRoot_binds stepCrypto _ _ (by decide) hsplit).not.2 (by decide)⟩

end Lxs
