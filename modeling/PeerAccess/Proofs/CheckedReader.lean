import PeerAccess.Pattern.Checked
import PeerAccess.Proofs.AddressPatterns

/-!
# Machine operations never fail

The two looks at a text agree, so the second one finds what it expects: every place is inside its
array, no counter or difference leaves its range, and no fallback is taken. What is left is the
reader without all that.
-/

namespace PeerAccess.Pattern.Checked

open Text Address
open PatternError (Reason)

/-- The outcome of reading numbers, as it is reported about the whole text. -/
def reported {α : Type} (s : String) (x : Except Reason α) : Except Failure α :=
  x.mapError fun r => .refused s (.known r)

section
variable {α β : Type} {s : String}

@[simp] theorem reported_ok (a : α) : reported s (.ok a) = .ok a := rfl

@[simp] theorem reported_error (r : Reason) :
    reported s (.error r : Except Reason α) = .error (.refused s (.known r)) := rfl

theorem reported_map (x : Except Reason α) (f : α → β) :
    reported s (x.map f) = reported s x >>= fun a => .ok (f a) := by
  cases x <;> rfl

end

/-! ## The shape -/

theorem counted_of_lt {n : Nat} (h : n < sizeBound) : counted n = .ok n := if_pos h

/-- Counting stops at the first group too many, long before the counter runs over. -/
theorem fits_eq {count seen : Nat} {ok : List Char → Bool} {gs : List (List Char)}
    (hcount : count + 1 < sizeBound) (hseen : seen ≤ count) :
    fits count ok seen gs = .ok (decide (seen + gs.length = count) && gs.all ok) := by
  induction gs generalizing seen with
  | nil =>
    unfold fits
    simp [beq_eq_decide]
  | cons g gs ih =>
    unfold fits
    rw [counted_of_lt (by omega)]
    dsimp only [bind, Except.bind]
    rcases Nat.lt_or_ge count (seen + 1) with hlast | hmore
    · have hne : decide (seen + (g :: gs).length = count) = false := by simp; omega
      rw [hne]
      simp [hlast, pure, Except.pure]
    · have hlen : seen + 1 + gs.length = seen + (g :: gs).length := by simp; omega
      cases hg : ok g with
      | false => simp [hg, pure, Except.pure]
      | true => simp [hg, ih hmore, hlen, Nat.not_lt.mpr hmore]

theorem groupCount_lt (f : Family) : f.groupCount + 1 < sizeBound := by cases f <;> decide

theorem fits_groups (f : Family) (ok : List Char → Bool) (cs : List Char) :
    fits f.groupCount ok 0 (cs.splitOn f.separator) = .ok (groupsWhere f ok cs).isSome := by
  rw [fits_eq (groupCount_lt f) (Nat.zero_le _), Nat.zero_add]
  unfold groupsWhere
  dsimp only
  split <;> simp_all

theorem accepts_eq (k : Kind) (cs : List Char) : accepts k cs = .ok (k.accepts cs) := by
  obtain ⟨f, shape⟩ := k
  unfold accepts Kind.accepts Kind.scan
  cases shape with
  | exact | wildcard => simp [fits_groups]
  | block =>
    cases cut '/' cs with
    | none => simp
    | some parts =>
      simp only [fits_groups, Option.bind_eq_bind, Option.bind_some]
      cases groupsWhere f f.isGroup parts.1 <;>
        cases isNumeral isDigit 1 f.lengthDigits parts.2 <;> rfl

theorem classify_eq (cs : List Char) (ks : List Kind) :
    classify cs ks = .ok (ks.find? (·.accepts cs)) := by
  induction ks with
  | nil => rfl
  | cons k ks ih =>
    unfold classify
    rw [accepts_eq, List.find?_cons, ih]
    cases k.accepts cs <;> rfl

/-! ## Numbers -/

theorem unsigned?_eq {digit : Char → Bool} {base bound most : Nat} {cs : List Char}
    (hsign : digit '+' = false) (hcs : isNumeral digit 1 most cs = true)
    (hlt : valueIn base cs < bound) : unsigned? digit base bound cs = some (valueIn base cs) := by
  simp only [isNumeral, Bool.and_eq_true, decide_eq_true_eq, List.all_eq_true] at hcs
  have hhead : cs.head? ≠ some '+' := by
    intro h
    rw [hcs.2 '+' (List.mem_of_mem_head? h)] at hsign
    cases hsign
  have hne : cs ≠ [] := List.ne_nil_of_length_pos hcs.1.1
  unfold unsigned?
  rw [if_neg hhead]
  exact if_pos ⟨hne, List.all_eq_true.mpr hcs.2, hlt⟩

theorem unsigned?_decimal {most : Nat} {cs : List Char} {bound : Nat}
    (hcs : isNumeral isDigit 1 most cs = true) (hbound : 10 ^ most ≤ bound) :
    unsigned? isDigit 10 bound cs = some (decimal cs) := by
  have hlt := (numeral_ten_iff.mpr ⟨hcs, rfl⟩).lt_pow (by decide)
  exact unsigned?_eq rfl hcs (hlt.trans_le hbound)

section
variable {s : String} {g : List Char}

theorem octet_eq (hg : Family.v4.isGroup g = true) :
    octet s g = reported s ((readGroup .v4 g).map UInt8.ofNat) := by
  unfold octet readGroup
  rw [unsigned?_decimal hg (by decide)]
  by_cases hlt : decimal g < 256
  · simp [Family.groupValue, Family.groupBound, hlt, Except.map]
  · simp [Family.groupValue, Family.groupBound, hlt, Except.map, refuse]

theorem hextet_eq (hg : Family.v6.isGroup g = true) :
    hextet s g = .ok (UInt16.ofNat (Family.v6.groupValue g)) := by
  have hread : unsigned? isHexDigit 16 65536 g = some (hexadecimal g) :=
    unsigned?_eq rfl hg (lt_groupBound_of_isGroup_v6 hg)
  unfold hextet
  rw [hread]
  rfl

theorem prefixLength_eq {f : Family} {ds : List Char}
    (hds : isNumeral isDigit 1 f.lengthDigits ds = true) :
    prefixLength s f.bits ds = reported s (readLength f ds) := by
  unfold prefixLength readLength
  rw [unsigned?_decimal hds (by cases f <;> decide)]
  dsimp only
  split <;> split <;> first | rfl | omega

end

/-! ## Places -/

section
variable {done : Octets} {i : Nat}

theorem put_at (hdone : done.length = i) (o o' : UInt8) (b : Octets) :
    put (done ++ o :: b) i o' = .ok (done ++ o' :: b) := by
  subst hdone
  unfold put
  rw [if_pos (by simp), List.set_append_right _ _ (Nat.le_refl _)]
  simp

theorem put_after (hdone : done.length = i) (o p p' : UInt8) (b : Octets) :
    put (done ++ o :: p :: b) (i + 1) p' = .ok (done ++ o :: p' :: b) := by
  have hlength : (done ++ [o]).length = i + 1 := by simp [hdone]
  simpa using put_at hlength p p' b

end

/-- The octets of `k` groups that are not there yet. -/
def unset (f : Family) (k : Nat) : Octets := zeros (k * f.octetsPerGroup)

theorem unset_succ (f : Family) (k : Nat) :
    unset f (k + 1) = List.replicate f.octetsPerGroup 0 ++ unset f k := by
  unfold unset zeros
  rw [← List.replicate_add, Nat.succ_mul, Nat.add_comm]

theorem unset_v4 (k : Nat) : unset .v4 (k + 1) = 0 :: unset .v4 k := unset_succ .v4 k

theorem unset_v6 (k : Nat) : unset .v6 (k + 1) = 0 :: 0 :: unset .v6 k := unset_succ .v6 k

theorem counted_places {i : Nat} (hi : i < Family.v6.groupCount) :
    counted (i * 2) = .ok (i * 2) ∧ counted (i * 2 + 1) = .ok (i * 2 + 1) := by
  simp only [Family.groupCount] at hi
  constructor <;> apply counted_of_lt <;> unfold sizeBound <;> omega

theorem toBytes_ofNat (n : Nat) :
    [(UInt16.ofNat n >>> 8).toUInt8, (UInt16.ofNat n).toUInt8] = Family.v6.groupOctets n :=
  Ipv6.segmentOctets_ofNat n

section
variable {s : String} {f : Family} {i k : Nat} {g : List Char}

theorem putGroup_eq {done : Octets} (hg : f.isGroup g = true)
    (hdone : done.length = i * f.octetsPerGroup) (hi : i < f.groupCount) :
    putGroup s f i g (done ++ unset f (k + 1)) =
      reported s ((readGroup f g).map fun n => done ++ f.groupOctets n ++ unset f k) := by
  unfold putGroup
  cases f with
  | v4 =>
    have hdone : done.length = i := by simpa [Family.octetsPerGroup] using hdone
    rw [octet_eq hg, unset_v4, reported_map, reported_map]
    cases reported s (readGroup .v4 g) with
    | error e => rfl
    | ok n => simp [bind, Except.bind, put_at hdone, Family.groupOctets]
  | v6 =>
    have hdone : done.length = i * 2 := hdone
    obtain ⟨hhigh, hlow⟩ := counted_places hi
    rw [hextet_eq hg, readGroup_v6 hg, unset_v6, reported_map]
    simp [bind, Except.bind, hhigh, hlow, put_at hdone, put_after hdone, ← toBytes_ofNat]

theorem putOpenGroup_eq {mask value : Octets} (hg : (g == star || f.isGroup g) = true)
    (hmask : mask.length = i * f.octetsPerGroup) (hvalue : value.length = i * f.octetsPerGroup)
    (hi : i < f.groupCount) :
    putOpenGroup s f i g (mask ++ unset f (k + 1), value ++ unset f (k + 1)) =
      reported s ((readOpenGroup f g).map fun v =>
        (mask ++ openGroupMask f v ++ unset f k, value ++ openGroupOctets f v ++ unset f k)) := by
  unfold putOpenGroup readOpenGroup
  by_cases hstar : g = star
  · simp [hstar, Except.map, openGroupMask, openGroupOctets, unset_succ]
  · have hg : f.isGroup g = true := by simpa [hstar] using hg
    rw [if_neg hstar, if_neg hstar]
    cases f with
    | v4 =>
      have hmask : mask.length = i := by simpa [Family.octetsPerGroup] using hmask
      have hvalue : value.length = i := by simpa [Family.octetsPerGroup] using hvalue
      dsimp only
      rw [octet_eq hg, unset_v4, reported_map, reported_map, reported_map]
      cases reported s (readGroup .v4 g) with
      | error e => simp [bind, Except.bind, put_at hmask]
      | ok n =>
        simp [bind, Except.bind, pure, Except.pure, put_at hmask, put_at hvalue, openGroupMask,
          openGroupOctets, Family.groupOctets, Family.octetsPerGroup]
    | v6 =>
      have hmask : mask.length = i * 2 := hmask
      have hvalue : value.length = i * 2 := hvalue
      obtain ⟨hhigh, hlow⟩ := counted_places hi
      dsimp only
      rw [hextet_eq hg, readGroup_v6 hg, unset_v6, reported_map]
      simp [bind, Except.bind, pure, Except.pure, Except.map, hhigh, hlow, put_at hmask,
        put_after hmask, put_at hvalue, put_after hvalue, openGroupMask, openGroupOctets,
        Family.octetsPerGroup, ← toBytes_ofNat, List.replicate]

end

/-! ## Loops over groups -/

section
variable {α β : Type} (s : String) {count : Nat} {ok : List Char → Prop}
  {read : List Char → Except Reason β} (step : Nat → List Char → α → Except Failure α)
  (state : List β → Nat → α)

/-- `state bs k` is what a loop carries when `bs` have been read and `k` groups are left. -/
theorem enumerate_eq (hcount : count < sizeBound)
    (hstep : ∀ bs k g, ok g → bs.length < count →
      step bs.length g (state bs (k + 1)) =
        reported s ((read g).map fun b => state (bs ++ [b]) k)) :
    ∀ (gs : List (List Char)) (bs : List β), (∀ g ∈ gs, ok g) → bs.length + gs.length = count →
      enumerate step bs.length (state bs gs.length) gs =
        reported s ((gs.mapM read).map fun bs' => state (bs ++ bs') 0) := by
  intro gs
  induction gs with
  | nil =>
    intro bs _ _
    simp [enumerate, Except.map, pure, Except.pure]
  | cons g gs ih =>
    intro bs hgs hlen
    rw [List.forall_mem_cons] at hgs
    rw [List.length_cons] at hlen ⊢
    unfold enumerate
    rw [counted_of_lt (by omega), hstep bs gs.length g hgs.1 (by omega), List.mapM_cons]
    cases read g with
    | error r => rfl
    | ok b =>
      have hnext := ih (bs ++ [b]) hgs.2 (by simp; omega)
      rw [List.length_append, List.length_singleton] at hnext
      simp only [Except.map, reported_ok, bind, Except.bind, hnext]
      cases gs.mapM read <;> simp [pure, Except.pure]

end

/-- An address of which the groups `ns` are there and `k` are not. -/
def filled (f : Family) (ns : List Nat) (k : Nat) : Octets := groupsOctets f ns ++ unset f k

/-- A mask and a value likewise. -/
def filledOpen (f : Family) (vs : List (Option Nat)) (k : Nat) : Octets × Octets :=
  (vs.flatMap (openGroupMask f) ++ unset f k, vs.flatMap (openGroupOctets f) ++ unset f k)

theorem filled_zero (f : Family) (ns : List Nat) : filled f ns 0 = groupsOctets f ns := by
  simp [filled, unset, zeros]

theorem filledOpen_zero (f : Family) (vs : List (Option Nat)) :
    filledOpen f vs 0 = (vs.flatMap (openGroupMask f), vs.flatMap (openGroupOctets f)) := by
  simp [filledOpen, unset, zeros]

theorem octetsPerGroup_eq (f : Family) : f.octetsPerGroup = f.form.width := by cases f <;> rfl

theorem length_openGroup (f : Family) (v : Option Nat) :
    (openGroupMask f v).length = f.octetsPerGroup ∧
      (openGroupOctets f v).length = f.octetsPerGroup := by
  cases f <;> cases v <;> simp [openGroupMask, openGroupOctets, Family.groupOctets,
    Family.octetsPerGroup]

theorem length_flatMap_of_const {α : Type} {g : α → Octets} {w : Nat} (h : ∀ a, (g a).length = w)
    (as : List α) : (as.flatMap g).length = as.length * w := by
  simp [List.length_flatMap, h]

section
variable {s : String} {f : Family} {g : List Char} {k : Nat}

theorem putGroup_filled {ns : List Nat} (hg : f.isGroup g = true) (hi : ns.length < f.groupCount) :
    putGroup s f ns.length g (filled f ns (k + 1)) =
      reported s ((readGroup f g).map fun n => filled f (ns ++ [n]) k) := by
  have hdone : (groupsOctets f ns).length = ns.length * f.octetsPerGroup := by
    rw [octetsPerGroup_eq, length_groupsOctets]
  unfold filled
  rw [putGroup_eq hg hdone hi]
  simp [groupsOctets]

theorem putOpenGroup_filledOpen {vs : List (Option Nat)} (hg : (g == star || f.isGroup g) = true)
    (hi : vs.length < f.groupCount) :
    putOpenGroup s f vs.length g (filledOpen f vs (k + 1)) =
      reported s ((readOpenGroup f g).map fun v => filledOpen f (vs ++ [v]) k) := by
  unfold filledOpen
  rw [putOpenGroup_eq hg (length_flatMap_of_const (fun v => (length_openGroup f v).1) vs)
    (length_flatMap_of_const (fun v => (length_openGroup f v).2) vs) hi]
  simp

end

section
variable {s : String} {f : Family} {gs : List (List Char)} (hcount : gs.length = f.groupCount)
include hcount

theorem address_eq (hgs : ∀ g ∈ gs, f.isGroup g = true) :
    address s f (join f.separator gs) =
      reported s ((gs.mapM (readGroup f)).map (groupsOctets f)) := by
  have hsplit : (join f.separator gs).splitOn f.separator = gs :=
    Written.splitOn_join (k := ⟨f, .exact⟩) hcount fun g hg => .inl (hgs g hg)
  have hzeros : zeros f.size = filled f [] gs.length := by rw [hcount]; rfl
  have hloop := enumerate_eq s (putGroup s f) (filled f)
    (Nat.lt_of_succ_lt (groupCount_lt f)) (fun ns k g hg hi => putGroup_filled hg hi)
    gs [] hgs (by simpa using hcount)
  unfold address
  rw [hsplit, hzeros]
  simpa [filled_zero] using hloop

theorem openAddress_eq (hgs : ∀ g ∈ gs, (g == star || f.isGroup g) = true) :
    openAddress s f (join f.separator gs) =
      reported s ((gs.mapM (readOpenGroup f)).map fun vs =>
        (vs.flatMap (openGroupMask f), vs.flatMap (openGroupOctets f))) := by
  have hsplit : (join f.separator gs).splitOn f.separator = gs :=
    Written.splitOn_join (k := ⟨f, .wildcard⟩) hcount fun g hg => by
      simpa [Written.Allows, or_comm] using hgs g hg
  have hzeros : (zeros f.size, zeros f.size) = filledOpen f [] gs.length := by rw [hcount]; rfl
  have hloop := enumerate_eq s (putOpenGroup s f) (filledOpen f)
    (Nat.lt_of_succ_lt (groupCount_lt f)) (fun vs k g hg hi => putOpenGroup_filledOpen hg hi)
    gs [] hgs (by simpa using hcount)
  unfold openAddress
  rw [hsplit, hzeros]
  simpa [filledOpen_zero] using hloop

end

/-! ## Masks -/

theorem not_lowOnes {n : Nat} (h : n < 8) :
    ∃ low, lowOnes n = .ok low ∧ ~~~low = leadingOctet n := by
  refine ⟨_, if_pos h, ?_⟩
  interval_cases n <;> decide

theorem leadingOctet_of_le {n : Nat} (h : 8 ≤ n) : leadingOctet n = 0xFF := by
  unfold leadingOctet
  rw [Nat.sub_eq_zero_of_le h]
  rfl

theorem leadingMask_zero (size : Nat) : leadingMask size 0 = zeros size := by
  induction size with
  | zero => rfl
  | succ size ih => rw [leadingMask, ih]; rfl

theorem setLeading_eq (size n : Nat) : setLeading (zeros size) n = .ok (leadingMask size n) := by
  induction size generalizing n with
  | zero => rfl
  | succ size ih =>
    have hzeros : zeros (size + 1) = 0 :: zeros size := rfl
    rw [hzeros, setLeading, leadingMask]
    split
    · rename_i hge
      have hminus : minus n 8 = .ok (n - 8) := if_pos hge
      rw [hminus, leadingOctet_of_le hge]
      simp [bind, Except.bind, pure, Except.pure, ih]
    · rename_i hlt
      obtain ⟨low, hlow, hnot⟩ := not_lowOnes (Nat.lt_of_not_le hlt)
      have hrest : n - 8 = 0 := by omega
      rw [hlow, hrest, leadingMask_zero, ← hnot]
      rfl

/-! ## The whole text -/

theorem classify_all (cs : List Char) :
    classify cs Kind.all = .ok ((Written.scan cs).map (·.kind)) := by
  rw [classify_eq, Kind.map_kind_scan]
  rfl

theorem splitSlash_eq {s : String} {a ds : List Char} (h : cut '/' s.toList = some (a, ds)) :
    splitSlash s = .ok (a, ds) := by
  unfold splitSlash
  rw [h]

theorem parse_of_scan {s : String} {w : Written} (h : Written.scan s.toList = some w) :
    parse s = reported s ((ofWritten w).map matcher) := by
  obtain ⟨hw, htext⟩ := Written.canonical_of_scan h
  have hcut := hw.cut_text
  rw [htext] at hcut
  unfold parse
  rw [classify_all, h]
  obtain ⟨⟨f, shape⟩, gs, ds⟩ := w
  have hcount : gs.length = f.groupCount := hw.count
  cases shape with
  | exact =>
    have haddress : s.toList = join f.separator gs := by
      simpa [Written.text, Written.address] using htext.symm
    have hgs : ∀ g ∈ gs, f.isGroup g = true := by simpa [Written.Allows] using hw.groups
    simp only [ofWritten, bind, Except.bind, Option.map_some, haddress, address_eq hcount hgs]
    cases gs.mapM (readGroup f) <;> rfl
  | wildcard =>
    have haddress : s.toList = join f.separator gs := by
      simpa [Written.text, Written.address] using htext.symm
    have hgs : ∀ g ∈ gs, (g == star || f.isGroup g) = true := by
      simpa [Written.Allows, or_comm] using hw.groups
    simp only [ofWritten, bind, Except.bind, Option.map_some, haddress, openAddress_eq hcount hgs]
    cases gs.mapM (readOpenGroup f) <;> rfl
  | block =>
    have hgs : ∀ g ∈ gs, f.isGroup g = true := by simpa [Written.Allows] using hw.groups
    simp only [ofWritten, bind, Except.bind, Option.map_some, splitSlash_eq hcut, Written.address,
      address_eq hcount hgs, prefixLength_eq hw.length, setLeading_eq]
    cases gs.mapM (readGroup f) with
    | error r => rfl
    | ok ns => cases readLength f ds <;> rfl

/-- The machine reads what `Pattern.parse` reads and refuses what it refuses, for its reasons. -/
theorem parse_eq (s : String) :
    parse s =
      ((Pattern.parse s).map matcher).mapError fun e => .refused e.pattern (.known e.reason) := by
  unfold Pattern.parse Pattern.read
  cases h : Written.scan s.toList with
  | none =>
    unfold parse
    rw [classify_all, h]
    rfl
  | some w =>
    rw [parse_of_scan h]
    dsimp only
    cases ofWritten w <;> rfl

end PeerAccess.Pattern.Checked
