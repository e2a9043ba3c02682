import PeerAccess.Address.Endpoint
import PeerAccess.Proofs.Mapped
import PeerAccess.Proofs.Scan
import PeerAccess.Proofs.Steps
import PeerAccess.Proofs.WrittenNumerals
import Mathlib.Data.List.TakeWhile

/-!
# Addresses as text

Printed addresses and endpoints read back as what they were. For IPv6 that is about the gap: the
reader finds the `::` that was printed, and it fills in as many zeros as were left out.
-/

namespace PeerAccess

open Text Address

/-! ## IPv4 -/

namespace Ipv4

theorem octet?_writeDecimal (o : UInt8) : octet? (writeDecimal o.toNat) = some o := by
  have hlt := o.toNat_lt
  obtain ⟨hnumeral, hvalue⟩ := numeral_writeDecimal (by omega : 0 < 3) (by omega : o.toNat < 10 ^ 3)
  have hzero : (writeDecimal o.toNat).length = 1 ∨ (writeDecimal o.toNat).head? ≠ some '0' := by
    rcases eq_or_ne o.toNat 0 with h | h
    · exact .inl (by rw [h]; rfl)
    · exact .inr (head?_writeDecimal h)
  unfold octet?
  rw [hvalue, if_pos ⟨hnumeral, hzero, hlt⟩, UInt8.ofNat_toNat]

theorem mem_print {a : Ipv4} {c : Char} (h : c ∈ a.print) : isDigit c = true ∨ c = '.' := by
  unfold print at h
  rcases Written.mem_join h with rfl | ⟨g, hg, hc⟩
  · exact .inr rfl
  · obtain ⟨o, _, rfl⟩ := List.mem_map.mp hg
    exact .inl (isDigit_of_mem_writeDecimal hc)

theorem not_mem_print {a : Ipv4} {c : Char} (h : isDigit c = false ∧ c ≠ '.') : c ∉ a.print := by
  intro hc
  rcases mem_print hc with hdigit | hdot
  · simp [h.1] at hdigit
  · exact h.2 hdot

theorem dot_mem_print (a : Ipv4) : '.' ∈ a.print := by
  obtain ⟨os, hlen⟩ := a
  match os, hlen with
  | [_, _, _, _], _ => simp [print, join]

theorem read_print (a : Ipv4) : read a.print = some a := by
  have hsplit : a.print.splitOn '.' = a.octets.map fun o => writeDecimal o.toNat := by
    apply List.splitOn_intercalate
    · simp only [List.mem_map]
      rintro _ ⟨o, _, rfl⟩ hdot
      exact absurd (isDigit_of_mem_writeDecimal hdot) (by decide)
    · intro hnil
      have := a.length_octets
      rw [List.map_eq_nil_iff.mp hnil] at this
      simp at this
  unfold read
  rw [hsplit, mapM_map_eq_some octet?_writeDecimal, Option.bind_some, ofOctets?,
    dif_pos a.length_octets]

end Ipv4

/-! ## Groups of IPv6 -/

namespace Ipv6

theorem numeral_segment (s : UInt16) :
    isNumeral isHexDigit 1 4 (writeHexadecimal s.toNat) = true ∧
      hexadecimal (writeHexadecimal s.toNat) = s.toNat :=
  numeral_writeHexadecimal (by omega) s.toNat_lt

theorem segment?_writeHexadecimal (s : UInt16) : segment? (writeHexadecimal s.toNat) = some s := by
  obtain ⟨hnumeral, hvalue⟩ := numeral_segment s
  unfold segment?
  rw [if_pos hnumeral, hvalue, UInt16.ofNat_toNat]

theorem isHexDigit_of_mem_group {s : UInt16} {c : Char} (h : c ∈ writeHexadecimal s.toNat) :
    isHexDigit c = true := by
  have hnumeral := (numeral_segment s).1
  simp only [isNumeral, Bool.and_eq_true, List.all_eq_true] at hnumeral
  exact hnumeral.2 c h

theorem group_ne_nil_and_colon (s : UInt16) :
    writeHexadecimal s.toNat ≠ [] ∧ ':' ∉ writeHexadecimal s.toNat :=
  ⟨Nat.toDigits_ne_nil, fun h => absurd (isHexDigit_of_mem_group h) (by decide)⟩

theorem segments?_map (dotted : Bool) (ss : List UInt16) :
    segments? dotted (ss.map fun s => writeHexadecimal s.toNat) = some ss := by
  induction ss with
  | nil => rfl
  | cons s ss ih =>
    cases ss with
    | nil => simp [segments?, segment?_writeHexadecimal]
    | cons t ss =>
      rw [List.map_cons] at ih
      rw [List.map_cons, List.map_cons, segments?]
      · rw [segment?_writeHexadecimal, ih]
        rfl
      · simp

theorem splitOn_printSegments {ss : List UInt16} (h : ss ≠ []) :
    (printSegments ss).splitOn ':' = ss.map fun s => writeHexadecimal s.toNat := by
  apply List.splitOn_intercalate
  · simp only [List.mem_map]
    rintro _ ⟨s, _, rfl⟩
    exact (group_ne_nil_and_colon s).2
  · simpa using h

theorem printSegments_ne_nil {ss : List UInt16} (h : ss ≠ []) : printSegments ss ≠ [] := by
  intro hnil
  have hsplit := splitOn_printSegments h
  rw [hnil, List.splitOn_nil] at hsplit
  have hmem : [] ∈ ss.map fun s => writeHexadecimal s.toNat := by rw [← hsplit]; simp
  obtain ⟨s, _, hs⟩ := List.mem_map.mp hmem
  exact (group_ne_nil_and_colon s).1 hs

theorem side?_printSegments (dotted : Bool) (ss : List UInt16) :
    side? dotted (printSegments ss) = some ss := by
  rcases eq_or_ne ss [] with rfl | h
  · rfl
  · unfold side?
    rw [if_neg (printSegments_ne_nil h), splitOn_printSegments h, segments?_map]

/-! ## The gap -/

theorem cutGap_cons {c : Char} (h : c ≠ ':') (cs : List Char) :
    cutGap (c :: cs) = (cutGap cs).map fun (a, b) => (c :: a, b) := by
  rw [cutGap]
  exact fun _ hc _ => h hc

theorem cutGap_append {g : List Char} (h : ':' ∉ g) (cs : List Char) :
    cutGap (g ++ cs) = (cutGap cs).map fun (a, b) => (g ++ a, b) := by
  induction g with
  | nil => simp
  | cons c g ih =>
    simp only [List.mem_cons, not_or] at h
    rw [List.cons_append, cutGap_cons (Ne.symm h.1), ih h.2, Option.map_map]
    rfl

theorem cutGap_colon {c : Char} (h : c ≠ ':') (cs : List Char) :
    cutGap (':' :: c :: cs) = (cutGap (c :: cs)).map fun (a, b) => (':' :: a, b) := by
  rw [cutGap]
  exact fun _ _ hcs => h (List.cons.inj hcs).1

theorem exists_cons_intercalate (c : Char) (g : List Char) (gs : List (List Char)) :
    ∃ t, [':'].intercalate ((c :: g) :: gs) = c :: t := by
  cases gs with
  | nil => exact ⟨g, by simp⟩
  | cons g' gs => exact ⟨_, by rw [List.intercalate_cons_cons]; rfl⟩

theorem cutGap_join {gs : List (List Char)} (h : ∀ g ∈ gs, g ≠ [] ∧ ':' ∉ g) (cs : List Char) :
    cutGap (join ':' gs ++ cs) = (cutGap cs).map fun (a, b) => (join ':' gs ++ a, b) := by
  unfold join
  induction gs with
  | nil => simp
  | cons g gs ih =>
    have hg := (h g (by simp)).2
    cases gs with
    | nil => simpa using cutGap_append hg cs
    | cons g' gs =>
      have ih := ih fun g hg => h g (List.mem_cons_of_mem _ hg)
      obtain ⟨hne, hcolon⟩ := h g' (by simp)
      obtain ⟨c, r, rfl⟩ := List.exists_cons_of_ne_nil hne
      have hc : c ≠ ':' := by
        rintro rfl
        exact hcolon (by simp)
      obtain ⟨t, ht⟩ := exists_cons_intercalate c r gs
      rw [ht] at ih
      rw [List.intercalate_cons_cons, ht, List.append_assoc, List.append_assoc, cutGap_append hg,
        List.singleton_append, List.cons_append, cutGap_colon hc, ← List.cons_append, ih,
        Option.map_map, Option.map_map]
      congr 1
      funext ⟨a, b⟩
      simp

theorem cutGap_printSegments (ss : List UInt16) (cs : List Char) :
    cutGap (printSegments ss ++ cs) =
      (cutGap cs).map fun (a, b) => (printSegments ss ++ a, b) := by
  apply cutGap_join
  simp only [List.mem_map]
  rintro _ ⟨s, _, rfl⟩
  exact group_ne_nil_and_colon s

/-! ## The longest run -/

theorem foldl_max_eq_or_mem (l : List Nat) (n : Nat) : l.foldl max n = n ∨ l.foldl max n ∈ l := by
  induction l generalizing n with
  | nil => exact .inl rfl
  | cons k l ih =>
    rw [List.foldl_cons]
    rcases ih (max n k) with h | h
    · rw [h]
      rcases max_choice n k with hmax | hmax
      · exact .inl hmax
      · exact .inr (by simp [hmax])
    · exact .inr (List.mem_cons_of_mem k h)

theorem zerosAt_longestStart {ss : List UInt16} (h : longestRun ss ≠ 0) :
    zerosAt ss (longestStart ss) = longestRun ss := by
  have hmem : longestRun ss ∈ zeroRuns ss := (foldl_max_eq_or_mem _ 0).resolve_left h
  have hlt : longestStart ss < (zeroRuns ss).length := List.idxOf_lt_length_of_mem hmem
  have hget : (zeroRuns ss)[longestStart ss] = longestRun ss := List.getElem_idxOf hlt
  simpa only [zeroRuns, List.getElem_map, List.getElem_range] using hget

theorem eq_take_zeros_drop {ss : List UInt16} (h : longestRun ss ≠ 0) :
    ss = ss.take (longestStart ss) ++ List.replicate (longestRun ss) 0 ++
      ss.drop (longestStart ss + longestRun ss) := by
  have hlen := zerosAt_longestStart h
  unfold zerosAt at hlen
  have hzeros : (ss.drop (longestStart ss)).takeWhile (· == 0) =
      List.replicate (longestRun ss) 0 := by
    refine List.eq_replicate_iff.mpr ⟨hlen, fun s hs => ?_⟩
    simpa using List.mem_takeWhile_imp hs
  obtain ⟨rest, hrest⟩ := List.takeWhile_prefix (· == 0) (l := ss.drop (longestStart ss))
  have hdrop : ss.drop (longestStart ss + longestRun ss) = rest := by
    rw [← List.drop_drop, ← hrest, List.drop_left' hlen]
  rw [hdrop, List.append_assoc, ← hzeros, hrest, List.take_append_drop]

theorem ofSegments?_segments (a : Ipv6) : ofSegments? a.segments = some a := by
  unfold ofSegments?
  rw [dif_pos a.length_segments]

theorem fillGap?_longest {a : Ipv6} (h : longestRun a.segments ≠ 0) :
    fillGap? (a.segments.take (longestStart a.segments))
      (a.segments.drop (longestStart a.segments + longestRun a.segments)) = some a := by
  have hparts := eq_take_zeros_drop h
  have hlen := congrArg List.length hparts
  simp only [List.length_append, List.length_replicate, a.length_segments] at hlen
  unfold fillGap?
  rw [if_pos (by omega)]
  have hzeros : 8 - (a.segments.take (longestStart a.segments)).length -
      (a.segments.drop (longestStart a.segments + longestRun a.segments)).length =
        longestRun a.segments := by omega
  rw [hzeros, ← hparts, ofSegments?_segments]

theorem read_printShort (a : Ipv6) : read (printShort a.segments) = some a := by
  unfold printShort
  split
  · have hgap : cutGap (printSegments a.segments) = none := by
      have := cutGap_printSegments a.segments []
      rwa [List.append_nil] at this
    have hne : a.segments ≠ [] := by
      intro hnil
      have := a.length_segments
      simp [hnil] at this
    unfold read
    rw [hgap]
    simp only [splitOn_printSegments hne, segments?_map, Option.bind_some, ofSegments?_segments]
  · rename_i hrun
    unfold read
    rw [cutGap_printSegments]
    simp only [cutGap, Option.map_some, List.append_nil, side?_printSegments]
    exact fillGap?_longest (by omega)

/-! ## Mapped addresses -/

theorem eq_toMapped {a : Ipv6} {v : Ipv4} (h : a.unmapped? = some v) : a = v.toMapped := by
  rw [unmapped?_eq_some_iff, ← v.octets_toMapped] at h
  have hsegments := flatMap_segmentOctets_injective h
  cases a
  cases hsegments
  rfl

theorem segment?_print_v4 (v : Ipv4) : segment? v.print = none := by
  unfold segment?
  rw [if_neg]
  intro hnumeral
  simp only [isNumeral, Bool.and_eq_true, List.all_eq_true] at hnumeral
  exact absurd (hnumeral.2 '.' v.dot_mem_print) (by decide)

theorem side?_mapped (v : Ipv4) :
    side? true ("ffff".toList ++ ':' :: v.print) = some (0xFFFF :: toSegments v.octets) := by
  have hcolon : ':' ∉ v.print := Ipv4.not_mem_print (by decide)
  have hhead : segment? ['f', 'f', 'f', 'f'] = some 0xFFFF := by decide
  unfold side?
  rw [if_neg (by simp), List.splitOn_append_cons_self_of_not_mem (by decide),
    List.splitOn_eq_singleton hcolon, segments?]
  · simp [hhead, segments?, segment?_print_v4, v.read_print]
  · simp

theorem read_mapped (v : Ipv4) : read ("::ffff:".toList ++ v.print) = some v.toMapped := by
  have hgap : cutGap ("::ffff:".toList ++ v.print) = some ([], "ffff".toList ++ ':' :: v.print) :=
    rfl
  have hside : side? false [] = some [] := rfl
  unfold read
  rw [hgap]
  simp only [hside, side?_mapped]
  have hlen := length_toSegments_four v.length_octets
  change fillGap? [] (0xFFFF :: toSegments v.octets) = _
  unfold fillGap?
  rw [if_pos (by simp [hlen])]
  simp only [List.length_cons, List.length_nil, hlen]
  exact ofSegments?_segments v.toMapped

theorem read_print (a : Ipv6) : read a.print = some a := by
  unfold print
  cases h : a.unmapped? with
  | none => exact read_printShort a
  | some v =>
    rw [eq_toMapped h]
    exact read_mapped v

/-! ## Characters -/

theorem mem_printSegments {ss : List UInt16} {c : Char} (h : c ∈ printSegments ss) :
    isHexDigit c = true ∨ c = ':' := by
  rcases Written.mem_join h with rfl | ⟨g, hg, hc⟩
  · exact .inr rfl
  · obtain ⟨s, _, rfl⟩ := List.mem_map.mp hg
    exact .inl (isHexDigit_of_mem_group hc)

theorem mem_printShort {ss : List UInt16} {c : Char} (h : c ∈ printShort ss) :
    isHexDigit c = true ∨ c = ':' := by
  unfold printShort at h
  split at h
  · exact mem_printSegments h
  · simp only [List.mem_append, List.mem_cons] at h
    rcases h with h | rfl | rfl | h
    · exact mem_printSegments h
    · exact .inr rfl
    · exact .inr rfl
    · exact mem_printSegments h

theorem not_mem_print {a : Ipv6} {c : Char} (hdigit : isHexDigit c = false)
    (hmarks : c ≠ ':' ∧ c ≠ '.') : c ∉ a.print := by
  unfold print
  cases a.unmapped? with
  | none =>
    intro h
    rcases mem_printShort h with hc | hc
    · simp [hdigit] at hc
    · exact hmarks.1 hc
  | some v =>
    have hv : isDigit c = false := by
      simp only [isHexDigit, Bool.or_eq_false_iff] at hdigit
      exact hdigit.1.1
    have hf : c ≠ 'f' := by
      rintro rfl
      exact absurd hdigit (by decide)
    simp [Ipv4.not_mem_print ⟨hv, hmarks.2⟩, hmarks.1, hf]

end Ipv6

/-! ## Endpoints -/

namespace Endpoint

theorem readPort_writeDecimal (p : UInt16) : readPort (writeDecimal p.toNat) = some p := by
  unfold readPort
  rw [boundedDecimal?_writeDecimal p.toNat_lt_size, Option.map_some, UInt16.ofNat_toNat]

theorem readScope_writeDecimal (s : UInt32) : readScope (writeDecimal s.toNat) = some s := by
  unfold readScope
  rw [boundedDecimal?_writeDecimal s.toNat_lt_size, Option.map_some, UInt32.ofNat_toNat]

theorem readV4_bracket (cs : List Char) : readV4 ('[' :: cs) = none := by
  have hread : ∀ g, Ipv4.read ('[' :: g) = none := by
    intro g
    obtain ⟨h, t, hsplit⟩ := List.exists_cons_of_ne_nil (List.splitOn_ne_nil '.' g)
    have hoctet : Ipv4.octet? ('[' :: h) = none := by
      unfold Ipv4.octet? isNumeral
      rw [if_neg]
      simp [isDigit]
    unfold Ipv4.read
    rw [List.splitOn_cons_eq_if_modifyHead, hsplit]
    simp [hoctet]
  unfold readV4
  rw [cut, if_neg (by decide)]
  cases cut ':' cs with
  | none => rfl
  | some parts => simp [hread]

theorem readV4_print (a : Ipv4) (p : UInt16) :
    readV4 (a.print ++ ':' :: writeDecimal p.toNat) = some (v4 a p) := by
  unfold readV4
  rw [cut_append _ (Ipv4.not_mem_print (by decide))]
  simp [a.read_print, readPort_writeDecimal]

theorem readScoped_print (a : Ipv6) (s : UInt32) :
    readScoped (a.print ++ if s = 0 then [] else '%' :: writeDecimal s.toNat) = some (a, s) := by
  have hpercent : '%' ∉ a.print := Ipv6.not_mem_print (by decide) (by decide)
  unfold readScoped
  rcases eq_or_ne s 0 with rfl | hs
  · rw [if_pos rfl, List.append_nil, cut_eq_none_iff.mpr hpercent]
    simp [a.read_print]
  · rw [if_neg hs, cut_append _ hpercent]
    simp [a.read_print, readScope_writeDecimal]

theorem readV6_print (a : Ipv6) (s : UInt32) (p : UInt16) :
    readV6 (v6 a s p).print = some (v6 a s p) := by
  have hbracket : ']' ∉ a.print ++ if s = 0 then [] else '%' :: writeDecimal s.toNat := by
    rw [List.mem_append, not_or]
    refine ⟨Ipv6.not_mem_print (by decide) (by decide), ?_⟩
    split
    · simp
    · rw [List.mem_cons, not_or]
      exact ⟨by decide, fun h => absurd (isDigit_of_mem_writeDecimal h) (by decide)⟩
  simp only [print, List.cons_append, readV6]
  rw [cut_append _ hbracket]
  simp [readScoped_print, readPort_writeDecimal]

theorem read_print (e : Endpoint) : read e.print = some e := by
  unfold read
  cases e with
  | v4 a p =>
    unfold print
    rw [readV4_print]
  | v6 a s p =>
    have hv4 : readV4 (v6 a s p).print = none := readV4_bracket _
    rw [hv4, readV6_print]

theorem parse?_toString (e : Endpoint) : parse? (toString e) = some e := by
  unfold parse?
  rw [toString, instToString, String.toList_ofList, read_print]

end Endpoint

end PeerAccess
