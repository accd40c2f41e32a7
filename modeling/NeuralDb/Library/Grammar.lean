import NeuralDb.Library.ByteCodec

/-! File formats as sets of words, read field by field. In a format that completes, every string begins
with a word or is the beginning of one, so a string without a word in front was cut off. -/

namespace NeuralDb.Library

section Completes

variable {α β : Type}

/-- Every string begins with a word of the format, or can be continued to one. -/
def Completes (L : List β → Prop) : Prop := ∀ bs, ∃ w, L w ∧ (w <+: bs ∨ bs <+: w)

theorem completes_nil {L : List β → Prop} (h : L []) : Completes L := fun _ => ⟨[], h, .inl List.nil_prefix⟩

theorem Completes.mono {L M : List β → Prop} (h : Completes L) (hsub : ∀ w, L w → M w) : Completes M := by
  intro bs
  obtain ⟨w, hw, hcmp⟩ := h bs
  exact ⟨w, hsub w hw, hcmp⟩

/-- A first field, and for each of its words the fields that follow it. -/
theorem Completes.seq {L M : List β → Prop} (h : Completes L) (hnext : ∀ w, L w → Completes fun v => M (w ++ v)) :
    Completes M := by
  intro bs
  obtain ⟨w, hw, hpre | hpre⟩ := h bs
  · obtain ⟨rest, rfl⟩ := hpre
    obtain ⟨v, hv, hcmp⟩ := hnext w hw rest
    refine ⟨w ++ v, hv, ?_⟩
    rwa [List.prefix_append_right_inj, List.prefix_append_right_inj]
  · -- the string ends in the first field
    obtain ⟨v, hv, -⟩ := hnext w hw []
    exact ⟨w ++ v, hv, .inr (hpre.trans (List.prefix_append w v))⟩

theorem completes_length [Inhabited β] (k : Nat) : Completes fun w : List β => w.length = k := by
  intro bs
  rcases Nat.le_total k bs.length with hle | hle
  · exact ⟨bs.take k, List.length_take_of_le hle, .inl (List.take_prefix k bs)⟩
  · have hlen : (bs ++ List.replicate (k - bs.length) default).length = k := by
      rw [List.length_append, List.length_replicate]
      omega
    exact ⟨_, hlen, .inr (List.prefix_append _ _)⟩

/-- A field repeated `n` times. -/
theorem Completes.repeated {P : α → Prop} {enc : α → List β} (h : Completes fun w => ∃ a, P a ∧ enc a = w) (n : Nat) :
    Completes fun w => ∃ as : List α, as.length = n ∧ (∀ a ∈ as, P a) ∧ as.flatMap enc = w := by
  induction n with
  | zero => exact completes_nil ⟨[], rfl, fun a ha => absurd ha List.not_mem_nil, rfl⟩
  | succ n ih =>
    refine h.seq ?_
    rintro w ⟨a, ha, rfl⟩
    refine ih.mono ?_
    rintro v ⟨as, hlen, has, rfl⟩
    exact ⟨a :: as, congrArg Nat.succ hlen, List.forall_mem_cons.mpr ⟨ha, has⟩, List.flatMap_cons⟩

end Completes

section Fields

theorem leBytes_leVal (bs : List UInt8) : leBytes bs.length (leVal bs) = bs := by
  induction bs with
  | nil => rfl
  | cons b bs ih =>
    have hb : b.toNat < 256 := b.toNat_lt
    have hmod : (b.toNat + 256 * leVal bs) % 256 = b.toNat := by omega
    have hdiv : (b.toNat + 256 * leVal bs) / 256 = leVal bs := by omega
    rw [List.length_cons, leVal, leBytes, hmod, hdiv, ih, UInt8.ofNat_toNat]

theorem completes_leBytes (k : Nat) : Completes fun w => ∃ n, n < 256 ^ k ∧ leBytes k n = w := by
  refine (completes_length k).mono ?_
  rintro w rfl
  exact ⟨leVal w, leVal_lt w, leBytes_leVal w⟩

end Fields

section Reads

variable {α : Type} {read : StateM Reader α} {bs cs : List UInt8} {a c : α}

/-- What a reader takes off the file does not depend on what follows, so it is the same on a longer one. -/
theorem Reads.prefix_eq (h : Reads read bs a) (h' : Reads read cs c) (hpre : bs <+: cs) : bs = cs ∧ a = c := by
  obtain ⟨tail, rfl⟩ := hpre
  obtain ⟨junk₁, h₁⟩ := h tail fun _ => 0
  obtain ⟨junk₂, h₂⟩ := h' [] fun _ => 0
  rw [List.append_nil, h₁] at h₂
  obtain ⟨hvalue, hstate⟩ := Prod.mk.inj h₂
  obtain rfl : tail = [] := congrArg Reader.rest hstate
  exact ⟨(List.append_nil bs).symm, hvalue⟩

theorem Reads.result (h : Reads read bs a) (rest : List UInt8) (junk : Nat → UInt8) :
    (read ⟨bs ++ rest, junk⟩).1 = a := by
  obtain ⟨junk', hread⟩ := h rest junk
  rw [hread]

/-- A property of what follows one reader, where the value that it returns is known. -/
theorem Yields.bind_at {β : Type} {next : α → StateM Reader β} {Q : β → Prop} {r : Reader} (h : (read r).1 = a)
    (hn : Yields (next a) Q) : Q ((read >>= next) r).1 := by
  subst h
  exact hn _

end Reads

end NeuralDb.Library
