import CodeAtlas.Proofs.Permalink.Forms

namespace CodeAtlas.Permalink

open Text

/-- The web address that a permalink was made from. -/
def address : Permalink → Text
  | git repo path rev =>
    "https://raw.githubusercontent.com/" ++ repo.drop (ofString "github.com/").length ++ "/" ++ rev ++ "/" ++ path
  | hg repo path rev => "https://" ++ repo ++ "/raw-file/" ++ rev ++ "/" ++ path
  | s3 bucket key => "https://" ++ bucket ++ ".s3.amazonaws.com/" ++ key
  | url u => u

def IsWebAddress (u : Text) : Prop := ofString "https://" <+: u ∨ ofString "http://" <+: u

/-- The forms that an address can have, each with what is said of it. An address that is both that of a Mercurial server
and that of a bucket counts as the former, and one of no form stands for itself. -/
inductive Shows (u : Text) : Permalink → Prop
  | github {org name rev path : Text} (h : IsGithub u org name rev path) :
      Shows u (git ("github.com/" ++ org ++ "/" ++ name) path rev)
  | mercurial {repo rev path : Text} (h : IsMercurial u repo rev path) : Shows u (hg repo path rev)
  | bucket {bucket key : Text} (h : IsBucket u bucket key) (noMercurial : ∀ repo rev path, ¬IsMercurial u repo rev path) :
      Shows u (s3 bucket key)
  | other (h : IsWebAddress u) (noGithub : ∀ org name rev path, ¬IsGithub u org name rev path)
      (noMercurial : ∀ repo rev path, ¬IsMercurial u repo rev path) (noBucket : ∀ bucket key, ¬IsBucket u bucket key) :
      Shows u (url u)

/-- Every web address has a permalink, which tells it back. -/
structure LosesNothing (u : Text) : Prop where
  none_iff : ofUrl? u = none ↔ ¬IsWebAddress u
  some_iff : ∀ p, ofUrl? u = some p ↔ Shows u p
  rebuilt : ∀ p, ofUrl? u = some p → p.address = u
  injective : ∀ v p, ofUrl? u = some p → ofUrl? v = some p → u = v

variable {u v org name repo rev path bucket key : Text} {p : Permalink}

theorem Shows.address_eq (h : Shows u p) : p.address = u := by
  cases h with
  | github h =>
    rw [h.address, address, List.append_assoc (ofString "github.com/"), List.append_assoc (ofString "github.com/"),
      List.drop_left]
    simp only [List.append_assoc]
  | mercurial h => exact h.address.symm
  | bucket h => exact h.address.symm
  | other => rfl

theorem HasHost.isWebAddress {host : Text} (h : HasHost u host) : IsWebAddress u := by
  obtain ⟨-, rest, rfl⟩ := h
  exact .inl (List.prefix_append _ _)

theorem Shows.isWebAddress (h : Shows u p) : IsWebAddress u := by
  cases h with
  | github h => exact h.hasHost.isWebAddress
  | mercurial h =>
    obtain ⟨host, hhost, -⟩ := h.exists_host
    exact hhost.isWebAddress
  | bucket h => exact h.hasHost.isWebAddress
  | other h => exact h

/-- The forms that are recognised come one after another, and any other web address stands for itself. -/
theorem ofUrl?_eq (u : Text) : ofUrl? u = (ofGithub? u).or ((ofMercurial? u).or ((ofBucket? u).or
    (if startsWith "https://" u ∨ startsWith "http://" u then some (url u) else none))) := by
  simp only [ofUrl?, Option.orElse_eq_orElse, Option.orElse_eq_or]

theorem ofUrl?_eq_some_iff : ofUrl? u = some p ↔ Shows u p := by
  have hweb : (startsWith "https://" u ∨ startsWith "http://" u) ↔ IsWebAddress u := or_congr startsWith_iff startsWith_iff
  rw [ofUrl?_eq, Option.or_eq_some_iff, Option.or_eq_some_iff, Option.or_eq_some_iff, ofGithub?_eq_none_iff,
    ofMercurial?_eq_none_iff, ofBucket?_eq_none_iff, Option.ite_none_right_eq_some, hweb, Option.some_inj]
  constructor
  · rintro (hgithub | ⟨hg, hmercurial | ⟨hm, hbucket | ⟨hb, hu, rfl⟩⟩⟩)
    · obtain ⟨org, name, rev, path, h, rfl⟩ := ofGithub?_eq_some_iff.mp hgithub
      exact .github h
    · obtain ⟨repo, rev, path, h, rfl⟩ := ofMercurial?_eq_some_iff.mp hmercurial
      exact .mercurial h
    · obtain ⟨bucket, key, h, rfl⟩ := ofBucket?_eq_some_iff.mp hbucket
      exact .bucket h hm
    · exact .other hu hg hm hb
  · intro h
    cases h with
    | github h => exact .inl (ofGithub?_eq_some_iff.mpr ⟨_, _, _, _, h, rfl⟩)
    | mercurial h =>
      have hg : ∀ org name rev path, ¬IsGithub u org name rev path := fun _ _ _ _ hg =>
        not_isMercurial_of_isGithub hg h
      exact .inr ⟨hg, .inl (ofMercurial?_eq_some_iff.mpr ⟨_, _, _, h, rfl⟩)⟩
    | bucket h hm =>
      have hg : ∀ org name rev path, ¬IsGithub u org name rev path := fun _ _ _ _ hg => not_isBucket_of_isGithub hg h
      exact .inr ⟨hg, .inr ⟨hm, .inl (ofBucket?_eq_some_iff.mpr ⟨_, _, h, rfl⟩)⟩⟩
    | other h hg hm hb => exact .inr ⟨hg, .inr ⟨hm, .inr ⟨hb, h, rfl⟩⟩⟩

theorem address_of_ofUrl? (h : ofUrl? u = some p) : p.address = u := (ofUrl?_eq_some_iff.mp h).address_eq

/-- No two addresses have one permalink. -/
theorem ofUrl?_inj (hu : ofUrl? u = some p) (hv : ofUrl? v = some p) : u = v :=
  (address_of_ofUrl? hu).symm.trans (address_of_ofUrl? hv)

/-- A web address always has a permalink. -/
theorem isSome_ofUrl? (h : startsWith "https://" u ∨ startsWith "http://" u) : (ofUrl? u).isSome := by
  rw [ofUrl?_eq, if_pos h]
  simp only [Option.isSome_or, Option.isSome_some, Bool.or_true]

theorem losesNothing (u : Text) : LosesNothing u where
  none_iff := by
    rw [Option.eq_none_iff_forall_ne_some]
    constructor
    · intro h hweb
      obtain ⟨p, hp⟩ := Option.isSome_iff_exists.mp (isSome_ofUrl? (hweb.imp startsWith_iff.mpr startsWith_iff.mpr))
      exact h p hp
    · exact fun hweb p hp => hweb (ofUrl?_eq_some_iff.mp hp).isWebAddress
  some_iff _ := ofUrl?_eq_some_iff
  rebuilt _ := address_of_ofUrl?
  injective _ _ := ofUrl?_inj

example : ofUrl? "https://hg.b.s3.amazonaws.com/r/raw-file/1f/raw-file/a.c" =
    some (hg "hg.b.s3.amazonaws.com/r" "raw-file/a.c" "1f") := by decide

end CodeAtlas.Permalink
