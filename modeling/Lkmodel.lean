import Lkmodel.Dtb.Accept
import Lkmodel.Mm.Isolation
import Lkmodel.UserStack
