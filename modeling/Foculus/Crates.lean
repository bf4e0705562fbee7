import Foculus.Crates.Tok
import Foculus.Crates.Zheng

namespace Foculus

structure Crates where
  hemera : Hemera
  tru : Tru
  tok : Tok
  zheng : Zheng

end Foculus
