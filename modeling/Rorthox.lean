import Rorthox.Memory.PageSpace
import Rorthox.Sched.Fair
import Rorthox.Disk.AtaDevice
import Rorthox.Term.Echo
import Rorthox.Keyboard.Classic
import Rorthox.Term.Page
import Rorthox.Fat.ReadAgree
import Rorthox.Fs.Create
import Rorthox.Fs.MountExact
import Rorthox.Programs.Strtok
import Rorthox.Tasks.Launch
import Rorthox.Tasks.Refusal
import Rorthox.Text.FormatSpec
import Rorthox.Fs.Outage
