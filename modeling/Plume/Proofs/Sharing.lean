import Plume.Editor.Page
import Plume.Proofs.Transcoding

/-!
# Scripts that are shared by a link

What a link gives back is the script that it was made for, less what UTF-8 cannot carry and the mark
that its readers take away (`Link.reads_back`). The page that a copied link opens therefore holds
the script of the page on which it was copied (`Page.load_of_copied`). The empty script is the one
exception: its link has nothing behind the question mark, and such a link opens the sample.
-/

namespace Plume

/-! ## Links -/

/-- U+FEFF, the byte order mark. -/
def byteOrderMark : CodeUnit := 0xFEFF

/-- The text without one byte order mark in front. -/
def Text.withoutMark (t : Text) : Text := if t.head? = some byteOrderMark then t.tail else t

namespace Link

/-- A character starts with the byte order mark only if it is the mark. -/
theorem exists_ofChar_eq_cons (c : Char) :
    ∃ u more, Text.ofChar c = u :: more ∧ (u = byteOrderMark → c = '\ufeff') := by
  have hvalid := isValidChar_toNat c
  have hmark : byteOrderMark.toNat = 0xFEFF := rfl
  unfold Text.ofChar
  dsimp only
  split
  next hone =>
    refine ⟨_, _, rfl, fun hu => ?_⟩
    have htoNat := congrArg UInt16.toNat hu
    rw [UInt16.toNat_ofNat', hmark] at htoNat
    refine Char.toNat_inj.mp ?_
    show c.toNat = 0xFEFF
    omega
  next hone =>
    -- the first of two units is a surrogate
    refine ⟨_, _, rfl, fun hu => ?_⟩
    have htoNat := congrArg UInt16.toNat hu
    rw [UInt16.toNat_ofNat', hmark] at htoNat
    omega

/-- The mark at the front of characters is the mark at the front of their text. -/
theorem ofChars_withoutMark (cs : List Char) :
    Text.ofChars (withoutMark cs) = (Text.ofChars cs).withoutMark := by
  cases cs with
  | nil => rfl
  | cons c rest =>
    by_cases hc : c = '\ufeff'
    · subst hc
      rfl
    · obtain ⟨u, more, hunits, hmark⟩ := exists_ofChar_eq_cons c
      have hhead : (Text.ofChars (c :: rest)).head? ≠ some byteOrderMark := by
        rw [Text.ofChars, List.flatMap_cons, hunits, List.cons_append, List.head?_cons]
        exact fun h => hc (hmark (Option.some.inj h))
      rw [withoutMark, if_neg (by simpa using hc), Text.withoutMark, if_neg hhead]

/-- A link gives back its script with lone surrogates replaced, and without a mark in front. -/
theorem decode?_encode (script : Text) :
    decode? (encode script) = some script.mended.withoutMark := by
  rw [decode?, encode, Base64.decode?_encode, Option.map_some, Utf8.decode_encode,
    ofChars_withoutMark, Text.ofChars_characters]

/-- A script without lone surrogates and without a mark in front is shared as it is. -/
theorem decode?_encode_of_isWellFormed {script : Text} (h : script.IsWellFormed)
    (hmark : script.head? ≠ some byteOrderMark) : decode? (encode script) = some script := by
  rw [decode?_encode, Text.mended_of_isWellFormed h, Text.withoutMark, if_neg hmark]

/-- A link gives back its script, with U+FFFD for every surrogate that is not part of a pair and
then without one byte order mark in front. A script that has neither comes back as it is. -/
theorem reads_back (script : Text) :
    decode? (encode script) = some script.mended.withoutMark
      ∧ (script.IsWellFormed → script.head? ≠ some byteOrderMark →
        decode? (encode script) = some script) :=
  ⟨decode?_encode script, decode?_encode_of_isWellFormed⟩

/-- A text with characters of one to four bytes in UTF-8. -/
def accentedGreeting : Text := "print(\"hé€😀\")"

theorem reads_back_accentedGreeting :
    accentedGreeting.IsWellFormed ∧ accentedGreeting.head? ≠ some byteOrderMark
      ∧ decode? (encode accentedGreeting) = some accentedGreeting := by
  have hwell : accentedGreeting.IsWellFormed := by decide
  have hmark : accentedGreeting.head? ≠ some byteOrderMark := by decide
  exact ⟨hwell, hmark, (reads_back accentedGreeting).2 hwell hmark⟩

end Link

/-! ## Pages -/

namespace Editor

/-- The unit `?`, which stands in front of a query. -/
def questionMark : CodeUnit := 0x3F

/-- The query of a link: what stands in it from the question mark on. -/
def queryOf (link : Text) : Text := link.dropWhile (· != questionMark)

namespace Page

variable {around : Surroundings} {page page' opened : Page} {fuel : Nat} {missing : List Text}
  {search script copied : Text}

/-- The query of a link is the script in it. -/
theorem queryOf_link (haddress : questionMark ∉ around.address) :
    queryOf (link around script) = questionMark :: Link.encode script := by
  have haddress' : ∀ u ∈ around.address, (u != questionMark) = true := by
    intro u hu
    rw [bne_iff_ne]
    rintro rfl
    exact haddress hu
  have hlink : link around script = around.address ++ questionMark :: Link.encode script :=
    List.append_assoc ..
  rw [queryOf, hlink, List.dropWhile_append_of_pos haddress', List.dropWhile_cons_of_neg]
  rw [bne_self_eq_false]
  exact Bool.false_ne_true

/-- A click copies a link only if it is the link to the script in the editor. -/
theorem eq_link_of_click (hclick : page.click fuel around .copyLink = .ok page')
    (hcopied : page'.copied = page.copied ++ [copied]) : copied = link around page.area.value := by
  obtain rfl := Except.ok.inj hclick
  unfold copyLink at hcopied
  split at hcopied
  · have hlength := congrArg List.length hcopied
    rw [List.length_append, List.length_singleton] at hlength
    exact absurd hlength (Nat.ne_of_lt (Nat.lt_succ_self _))
  · exact (List.singleton_inj.mp (List.append_cancel_left hcopied)).symm

/-- Only the empty script has an empty link. -/
theorem ofQuery_encode (h : script.IsWellFormed) (hmark : script.head? ≠ some byteOrderMark) :
    Link.ofQuery (questionMark :: Link.encode script)
      = .ok (if script = [] then none else some script) := by
  have hback := Link.decode?_encode_of_isWellFormed h hmark
  cases hencoded : Link.encode script with
  | nil =>
    rw [hencoded] at hback
    obtain rfl : [] = script := Option.some.inj hback
    rfl
  | cons u more =>
    have hne : script ≠ [] := by
      rintro rfl
      cases hencoded
    rw [hencoded] at hback
    simp only [Link.ofQuery, List.length_cons, List.drop_one, List.tail_cons, hback]
    rw [if_neg (by omega), if_neg hne]

/-- A page with all its elements opens with the script of its link, or else with the sample. -/
theorem load_of_ofQuery {other : Text} {shared : Option Text}
    (hpage : load missing search = .ok opened) (hquery : Link.ofQuery other = .ok shared) :
    load missing other = .ok ⟨⟨shared.getD sampleScript, 0, 0⟩, [], [], [], [], []⟩ := by
  unfold load at hpage ⊢
  split at hpage
  · cases hpage
  · rw [hquery]

/-- The link that is copied on a page opens a page that holds the same script, except that the link
to the empty script opens the sample. -/
theorem load_of_copied (hpage : load missing search = .ok opened)
    (haddress : questionMark ∉ around.address) (hwell : page.area.value.IsWellFormed)
    (hmark : page.area.value.head? ≠ some byteOrderMark)
    (hclick : page.click fuel around .copyLink = .ok page')
    (hcopied : page'.copied = page.copied ++ [copied]) :
    ∃ restored, load missing (queryOf copied) = .ok restored
      ∧ restored.area.value
        = if page.area.value = [] then sampleScript else page.area.value := by
  obtain rfl := eq_link_of_click hclick hcopied
  rw [queryOf_link haddress]
  refine ⟨_, load_of_ofQuery hpage (ofQuery_encode hwell hmark), ?_⟩
  dsimp only
  split <;> rfl

/-- A page at some address, whose clipboard takes texts. -/
def exampleSite : Surroundings := ⟨"https://plume.test/editor/", none⟩

/-- A page that holds the given script and nothing else. -/
def holding (script : Text) : Page := ⟨⟨script, 0, 0⟩, [], [], [], [], []⟩

/-- The greeting, copied as a link and loaded again. -/
theorem load_of_copied_accentedGreeting :
    ∃ page' copied restored,
      (holding Link.accentedGreeting).click 0 exampleSite .copyLink = .ok page'
        ∧ page'.copied = [copied]
        ∧ load [] (queryOf copied) = .ok restored
        ∧ restored.area.value = Link.accentedGreeting := by
  have hpage : load [] [] = .ok (holding sampleScript) := rfl
  have haddress : questionMark ∉ exampleSite.address := by decide
  have hwell : Link.accentedGreeting.IsWellFormed := by decide
  have hmark : Link.accentedGreeting.head? ≠ some byteOrderMark := by decide
  have hclick : (holding Link.accentedGreeting).click 0 exampleSite .copyLink
      = .ok ((holding Link.accentedGreeting).copyLink exampleSite) := rfl
  obtain ⟨restored, hload, hvalue⟩ := load_of_copied hpage haddress hwell hmark hclick rfl
  exact ⟨_, _, restored, hclick, rfl, hload, hvalue⟩

/-- Where the editor has been emptied, the link that is copied does not lead back to an empty
editor. -/
theorem load_link_of_emptied :
    (holding sampleScript).perform 0 exampleSite (.edit (.set [])) = .ok (holding [])
      ∧ (holding []).area.value.IsWellFormed
      ∧ (holding []).area.value.head? ≠ some byteOrderMark
      ∧ (holding []).click 0 exampleSite .copyLink
        = .ok { holding [] with copied := [("https://plume.test/editor/?" : Text)] }
      ∧ load [] (queryOf "https://plume.test/editor/?") = .ok (holding sampleScript)
      ∧ (holding sampleScript).area.value ≠ (holding []).area.value :=
  ⟨rfl, by decide, by decide, rfl, rfl, List.cons_ne_nil _ _⟩

end Page

end Editor

end Plume
