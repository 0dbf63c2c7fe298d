import BTron.Types

namespace BTron

-- The device and the arguments of decode_and_draw_gif and decode_and_draw_png.
structure ImageView where
  devWidth : Int
  devHeight : Int
  dstX : Int
  dstY : Int
  maxW : Int
  maxH : Int

def ImageView.drawX (v : ImageView) (imgW : Int) : Int :=
  if v.maxW > imgW then v.dstX + (v.maxW - imgW) / 2 else v.dstX

def ImageView.outX (v : ImageView) (imgW : Int) (x : Nat) : Int := v.drawX imgW + x

def ImageView.outY (v : ImageView) (y : Nat) : Int := v.dstY + y

-- The pixel is one of those drawn. The loop over the rows is left at the first row past max_h.
def ImageView.Draws (v : ImageView) (imgW imgH : Int) (x y : Nat) : Prop :=
  x < imgW ∧ y < imgH ∧ ¬(v.outY y < 32 ∨ v.outY y ≥ v.devHeight - 22) ∧
    ¬(v.maxH > 0 ∧ y ≥ v.maxH) ∧
    ¬(v.outX imgW x < v.dstX ∨ v.outX imgW x ≥ v.dstX + v.maxW) ∧
    ¬(v.outX imgW x < 0 ∨ v.outX imgW x ≥ v.devWidth)

instance (v : ImageView) (imgW imgH : Int) (x y : Nat) : Decidable (v.Draws imgW imgH x y) :=
  inferInstanceAs (Decidable (_ ∧ _ ∧ _ ∧ _ ∧ _ ∧ _))

end BTron
